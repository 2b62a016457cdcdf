import Fastffs.IndexArea
import Fastffs.Lib.Shelves
import Fastffs.SectorRuns

/-!
# Sectors of small files

A small file is one extent: the root record, and under it the name and the bytes.  `Filed`
says that a sector holds the records of some small files, old and new ones, with the data
they claim.  `Condemned` is a sector whose footer has been tombstoned, and `Inside` says that
a call has changed no sector but one.

What the programs of `fffs_file_md.c` do to a sector is said once here.  They find records by
the slot (`Filed.readMd`), kill them (`Filed.tombstone`), and look for a window
(`Filed.find`).
-/

namespace Fastffs

open Prog
open Nor (Byte Mem blank)

/-! ## Small files -/

/-- A file that one extent holds. -/
structure SmallFile where
  name : List Byte
  bytes : List Byte
deriving DecidableEq, Repr

/-- The data of the extent. -/
def SmallFile.image (f : SmallFile) : List Byte := rootPrefix f.name ++ f.bytes

/-- The name is a C string that `fffs_open` takes. -/
structure NameOk (name : List Byte) : Prop where
  cstr : cstr name = name
  nonempty : name ≠ []
  short : name.length ≤ maxName

/-- A root record, and the file it is a version of. -/
structure Entry where
  md : MdRecord
  file : SmallFile

/-- The entry with its record tombstoned. -/
def Entry.kill (e : Entry) : Entry := { e with md := e.md.kill }

instance : Item Entry Nat SmallFile where
  key e := e.md.slot
  val e := e.file
  live e := e.md.live
  kill := Entry.kill
  key_kill _ := rfl
  live_kill _ := rfl

theorem Entry.liveFor_eq (k : Nat) (e : Entry) : Item.liveFor k e = liveFor k e.md := by
  rw [Bool.eq_iff_iff, Item.liveFor_iff, liveFor, Bool.and_eq_true, beq_iff_eq]
  rfl

/-- The records of the entries. -/
abbrev records (es : List Entry) : List MdRecord := es.map Entry.md

theorem records_killFirst (k : Nat) (es : List Entry) :
    records (Item.killFirst k es) = updateFirst (liveFor k) MdRecord.kill (records es) := by
  induction es with
  | nil => rfl
  | cons e es ih =>
    change records (if _ then _ else _) = if _ then _ else _
    rw [Entry.liveFor_eq]
    split
    · rfl
    · exact congrArg (e.md :: ·) ih

theorem records_find (k : Nat) (es : List Entry) :
    (records es).find? (liveFor k) = (es.find? (Item.liveFor k)).map Entry.md := by
  rw [List.find?_map]
  exact congrArg (fun p => (es.find? p).map Entry.md) (funext fun e => (Entry.liveFor_eq k e).symm)

/-- The record is that of a committed root of one extent with the file. -/
structure Entry.Whole (e : Entry) : Prop where
  type : e.md.type = mdTypeFileRootV1
  state : e.md.state ≠ blank
  span : e.md.spanLen = 1
  next : e.md.next = 0
  len : e.md.dataLen = e.file.image.length
  size : e.md.sizeOrOffset = e.file.bytes.length
  name : NameOk e.file.name
  slot : NameSlot e.md.slot

theorem Entry.Whole.kill {e : Entry} (h : e.Whole) : e.kill.Whole :=
  { h with state := (by decide : lifecycleTombstoned ≠ blank) }

theorem NameOk.prefix_eq {name : List Byte} (h : NameOk name) :
    rootPrefix name = [byte name.length] ++ name ++ [0#8] := by
  rw [rootPrefix, h.cstr]

theorem NameOk.length_prefix {name : List Byte} (h : NameOk name) :
    (rootPrefix name).length = name.length + 2 := by
  rw [h.prefix_eq]
  simp

theorem SmallFile.length_image {f : SmallFile} (h : NameOk f.name) :
    f.image.length = f.name.length + 2 + f.bytes.length := by
  rw [SmallFile.image, List.length_append, h.length_prefix]

/-- Every entry claims the prefix and a name of one byte at least. -/
theorem Entry.Whole.len_ge {e : Entry} (h : e.Whole) : 3 ≤ e.md.dataLen := by
  have hpos := List.length_pos_of_ne_nil h.name.nonempty
  rw [h.len, SmallFile.length_image h.name]
  omega

/-! ## Sectors -/

/-- The sector holds the records of the entries, and the files of the entries under them. -/
structure Filed (S c n s : Nat) (es : List Entry) (w : World) : Prop where
  recorded : Recorded S c n s (records es) (claimedEnd 0 (records es)) w
  whole : ∀ e ∈ es, e.Whole
  data : ∀ e ∈ es, Nor.read w.dev.mem (s * S + e.md.dataOff) e.md.dataLen = e.file.image

/-- The footer says that the sector has been tombstoned. -/
structure SectorFooter.Tombstoned (f : SectorFooter) : Prop where
  erased : f.erased = false
  type : f.type = sectorTypeFile
  magic : f.magicValid = true
  valid : f.validBits ≠ .mixed
  tombstone : f.tombstoneBits = .cleared

/-- The sector has been tombstoned when none of its records was live, and is not erased yet. -/
structure Condemned (S c n s : Nat) (w : World) : Prop where
  place : SectorAt S c n s w
  footer : (decodeSectorFooter (Nor.read w.dev.mem (s * S + (S - sectorFooterSize)) sectorFooterSize)).Tombstoned
  records : ∃ es w0, Filed S c n s es w0 ∧ (∀ e ∈ es, e.md.live = false) ∧ Touches S s (S - sectorFooterSize) S w0 w

/-- The file system without what neither the index, the collector nor a handle uses. -/
def dataFs (fs : Fs) : Fs :=
  { fs with
    allocMap := fun _ => false, nextSectorSerial := 0, committedFilesValid := false
    committedBytesValid := false, committedFileCount := 0, committedDataBytes := 0, avgSectorsPerFileQ8 := 0 }

/-- Of the flash only bytes of the sector from `lo` to `hi` have changed, and nothing in RAM but
the allocation map, the serial and the counts. -/
structure Inside (S s lo hi : Nat) (w w' : World) : Prop where
  plan : w.dev.plan = [] → w'.dev.plan = []
  size : w'.dev.size = w.dev.size
  granule : w'.dev.programGranule = w.dev.programGranule
  fs : dataFs w'.fs = dataFs w.fs
  bytes : ∀ a, a < s * S + lo ∨ s * S + hi ≤ a → Nor.get w'.dev.mem a = Nor.get w.dev.mem a

section Inside

variable {S c n s t lo hi : Nat} {w w1 w' : World} {es : List Entry}

theorem Inside.refl : Inside S s lo hi w w := ⟨id, rfl, rfl, rfl, fun _ _ => rfl⟩

theorem Inside.trans (h : Inside S s lo hi w w1) (h' : Inside S s lo hi w1 w') : Inside S s lo hi w w' where
  plan hp := h'.plan (h.plan hp)
  size := h'.size.trans h.size
  granule := h'.granule.trans h.granule
  fs := h'.fs.trans h.fs
  bytes a ha := (h'.bytes a ha).trans (h.bytes a ha)

theorem Inside.mono {lo' hi' : Nat} (h : Inside S s lo' hi' w w') (hlo : lo ≤ lo') (hhi : hi' ≤ hi) :
    Inside S s lo hi w w' :=
  { h with bytes := fun a ha => h.bytes a (by omega) }

/-- A field of the file system that `dataFs` keeps. -/
theorem dataFs_view {fs fs' : Fs} (h : dataFs fs' = dataFs fs) {α : Type} (view : Fs → α)
    (hview : ∀ fs, view (dataFs fs) = view fs) : view fs' = view fs := by
  rw [← hview fs', h, hview]

theorem Inside.view {α : Type} (h : Inside S s lo hi w w') (view : Fs → α)
    (hview : ∀ fs, view (dataFs fs) = view fs) : view w'.fs = view w.fs := dataFs_view h.fs view hview

/-- The index is below the sector. -/
theorem Inside.area (h : Inside S s lo hi w w') (hs : n ≤ s) : SameArea (n * S) w w' where
  plan := h.plan
  size := h.size
  granule := h.granule
  area a ha := h.bytes a (.inl (Nat.lt_add_right lo (ha.trans_le (Nat.mul_le_mul_right S hs))))
  index := h.view indexFs fun _ => rfl

/-- What the sector sees of the change. -/
theorem Inside.touches (h : Inside S s lo hi w w') (hplan : w.dev.plan = []) : Touches S s lo hi w w' where
  sectorSize := h.view Fs.sectorSize fun _ => rfl
  sectorCount := h.view Fs.sectorCount fun _ => rfl
  indexSectors := h.view Fs.indexSectors fun _ => rfl
  scratchSize := h.view Fs.scratchSize fun _ => rfl
  granule := h.granule
  plan := (h.plan hplan).trans hplan.symm
  size := h.size
  bytes a _ hout := h.bytes _ (by omega)

/-- What another sector sees of the change. -/
theorem Inside.other (h : Inside S s lo hi w w') (hhi : hi ≤ S) (hplan : w.dev.plan = []) (hne : t ≠ s) :
    Touches S t 0 0 w w' where
  sectorSize := h.view Fs.sectorSize fun _ => rfl
  sectorCount := h.view Fs.sectorCount fun _ => rfl
  indexSectors := h.view Fs.indexSectors fun _ => rfl
  scratchSize := h.view Fs.scratchSize fun _ => rfl
  granule := h.granule
  plan := (h.plan hplan).trans hplan.symm
  size := h.size
  bytes a ha _ := by
    refine h.bytes _ ?_
    rcases Nat.lt_or_gt_of_ne hne with hlt | hgt
    · have hmul := Nat.mul_le_mul_right S (show t + 1 ≤ s from hlt)
      rw [Nat.succ_mul] at hmul
      omega
    · have hmul := Nat.mul_le_mul_right S (show s + 1 ≤ t from hgt)
      rw [Nat.succ_mul] at hmul
      omega

/-- A sector is still in its place. -/
theorem Inside.place (h : Inside S s lo hi w w') (hp : SectorAt S c n t w) : SectorAt S c n t w' where
  sectorSize := (h.view Fs.sectorSize fun _ => rfl).trans hp.sectorSize
  sectorCount := (h.view Fs.sectorCount fun _ => rfl).trans hp.sectorCount
  indexSectors := (h.view Fs.indexSectors fun _ => rfl).trans hp.indexSectors
  scratch := (h.view Fs.scratchSize fun _ => rfl).symm ▸ hp.scratch
  granule := h.granule.symm ▸ hp.granule
  aligned := by
    rw [h.size, h.granule]
    exact hp.aligned
  plan := h.plan hp.plan
  size_ge := hp.size_ge
  data := hp.data
  lt := hp.lt
  inside := h.size.symm ▸ hp.inside

instance : ReadInv (Inside S s lo hi w) where
  ofRead h := ⟨fun hp => nextPlan_nil (h.plan hp), h.size, h.granule, h.fs, h.bytes⟩

instance (act : Act) : Keeps (Inside S s lo hi w) (note act) := ⟨fun _ h => { h with }⟩

instance : NarrowInv (Inside S s lo hi w) where
  narrow h := ⟨h.plan, h.size, h.granule, h.fs, h.bytes⟩

/-- A program inside the sector. -/
theorem Inside.program (h : Inside S s lo hi w w1) {off : Nat} {bs : List Byte} (hlo : lo ≤ off)
    (hhi : off + bs.length ≤ hi) :
    Inside S s lo hi w (w1.withMem (Nor.program w1.dev.mem (s * S + off) bs) []) := by
  refine h.trans ⟨fun _ => rfl, rfl, rfl, rfl, fun a ha => ?_⟩
  exact Nor.get_program_of_notMem (by omega)

theorem keeps_insideFs {f : Fs → Fs} (h : ∀ fs, dataFs (f fs) = dataFs fs) :
    Keeps (Inside S s lo hi w) (modifyFs f) :=
  ⟨fun _ hw => ⟨hw.plan, hw.size, hw.granule, (h _).trans hw.fs, hw.bytes⟩⟩

instance [Opts] (sector : Nat) (used : Bool) : Keeps (Inside S s lo hi w) (modifyFs (allocMapMark sector used)) := by
  refine keeps_insideFs fun fs => ?_
  rw [allocMapMark]
  split
  · split <;> rfl
  · rfl

instance [Opts] (sector : Nat) : Keeps (Inside S s lo hi w) (allocMapMarkUsed sector) := by
  unfold allocMapMarkUsed; infer_instance

instance [Opts] (sector : Nat) : Keeps (Inside S s lo hi w) (allocMapMarkUnknown sector) := by
  unfold allocMapMarkUnknown; infer_instance

instance [Opts] (first count : Nat) : Keeps (Inside S s lo hi w) (allocMapMarkRangeUnknown first count) := by
  induction count generalizing first with
  | zero => unfold allocMapMarkRangeUnknown; infer_instance
  | succ count ih => unfold allocMapMarkRangeUnknown; infer_instance

instance : Keeps (Inside S s lo hi w) (modifyFs fsinfoInvalidateCommitted) := keeps_insideFs fun _ => rfl

instance [Opts] : Keeps (Inside S s lo hi w) fsinfoRefresh := by
  have hcounts : ∀ files bytes, Keeps (Inside S s lo hi w) (modifyFs fun fs =>
      { fs with committedFileCount := files, committedDataBytes := bytes
                committedFilesValid := true, committedBytesValid := true }) :=
    fun _ _ => keeps_insideFs fun _ => rfl
  unfold fsinfoRefresh
  refine Keeps.bind (k := fun counts => ?_)
  rcases counts with e | ⟨files, bytes⟩
  · infer_instance
  · exact hcounts files bytes

instance [Opts] (refresh refreshIfNeeded estimate : Bool) :
    Keeps (Inside S s lo hi w) (fsinfo refresh refreshIfNeeded estimate) := by
  unfold fsinfo; infer_instance

instance : Keeps (Inside S s lo hi w) claimSectorSerial := by
  unfold claimSectorSerial
  have hserial (next : Nat) : Keeps (Inside S s lo hi w) (modifyFs fun fs => { fs with nextSectorSerial := next }) :=
    keeps_insideFs fun _ => rfl
  exact Keeps.bind (k := fun _ => Keeps.bind (j := hserial _))

/-- The full mark of the sector. -/
theorem keeps_insideFull (hp : SectorAt S c n s w) :
    Keeps (Inside S s (S - sectorFooterSize) S w) (markSectorFull s) := by
  constructor
  intro w1 h
  have hp1 := h.place hp
  have hge := hp.size_ge
  have hoff : sectorFooterOffset w1.fs s + 5 = s * S + (S - sectorFooterSize + 5) := by
    rw [sectorFooterOffset, hp1.sectorSize, sectorFooterSize]
    omega
  have hle : S - sectorFooterSize + 5 + [lifecycleFull].length ≤ S := by
    rw [sectorFooterSize, List.length_singleton]
    omega
  rw [markSectorFull, bind_of_ok (run_getFs w1), hoff, hp1.program hle]
  exact h.program (Nat.le_add_right _ _) hle

/-- The search for a window changes the full mark at most. -/
theorem keeps_findWindow {I : World → Prop} [ReadInv I] [NarrowInv I] (hfull : Keeps I (markSectorFull s))
    (minFree slot : Nat) (normal : Bool) : Keeps I (findSectorFreeWindow s minFree slot normal) := by
  have hloop : ∀ fuel reader walk scan, Keeps I (freeWindowLoop s slot normal fuel reader walk scan) := by
    intro fuel
    induction fuel with
    | zero => exact fun reader walk scan => by unfold freeWindowLoop; infer_instance
    | succ fuel ih =>
      intro reader walk scan
      unfold freeWindowLoop
      split
      · infer_instance
      · refine Keeps.bind (k := fun a => ?_)
        obtain ⟨⟨walk, r, result⟩, reader⟩ := a
        cases result <;> infer_instance
  unfold findSectorFreeWindow
  refine Keeps.bind (k := fun fs => ?_)
  split
  · infer_instance
  refine Keeps.bind (k := fun view => ?_)
  dsimp only
  split
  · infer_instance
  · split
    · infer_instance
    · split <;> infer_instance

end Inside

/-! ## Walks and lookups -/

section Lookup

variable {S c n s slot : Nat} {all rs : List MdRecord} {w : World} {walk : MdWalk} {reader : SectorReader}

/-- The footer of a sector is blank, or that of a live file sector. -/
theorem Recorded.readFooter {free : Nat} (h : Recorded S c n s all free w)
    (hnew : reader.enter s = { sector := s }) : ∃ footer reader',
      (readSectorFooter reader s).run w = (.ok (footer, reader'), w) ∧
        reader'.Shows s (S + sectorFooterSize) w ∧
        (all = [] ∧ footer.erased = true ∨
          all ≠ [] ∧ footer.erased = false ∧ footer.type = sectorTypeFile ∧ footer.magicValid = true ∧
            footer.isLive = true) := by
  obtain ⟨reader', hread, hreader'⟩ := h.place.readFooter hnew
  refine ⟨_, reader', hread, hreader', ?_⟩
  rcases h.footer with ⟨rfl, hblank⟩ | ⟨hne, serial, full, hfooter⟩
  · have hge := h.place.size_ge
    refine .inl ⟨rfl, flashBytesErased_of_blank fun i hlo hhi => ?_⟩
    rw [← Nat.add_sub_cancel' (show s * S ≤ i by omega)]
    exact hblank _ (by omega) (by rw [sectorFooterSize] at *; omega)
  · rw [hfooter]
    exact .inr ⟨hne, decodeSectorFooter_bytes serial full⟩

theorem SectorFooter.isLive_iff {f : SectorFooter} :
    f.isLive = true ↔ f.validBits = .cleared ∧ f.tombstoneBits = .set := by
  rw [SectorFooter.isLive, lifecycleIsLive, Bool.and_eq_true, beq_iff_eq, beq_iff_eq]

/-- A lookup ends at the first record that matches. -/
theorem readMdForSlotLoop_run (h : Recorded S c n s all (claimedEnd 0 all) w) {m : MdSlotMatch} {fuel : Nat}
    (hw : walk.Before S s all rs) (hreader : reader.Shows walk.sector walk.cursor w)
    (hfuel : rs.length < fuel) : ∃ e, (e = m.missing ∨ e = .corrupt) ∧
      (readMdForSlotLoop slot m fuel reader walk).run w =
        ((rs.find? fun r => mdRecordMatchesSlot r slot m).elim (.error e) .ok, w) := by
  induction rs generalizing reader walk fuel with
  | nil =>
    obtain ⟨fuel, rfl⟩ : ∃ k, fuel = k + 1 := ⟨fuel - 1, by omega⟩
    rw [readMdForSlotLoop]
    by_cases hactive : walk.active = true
    · obtain ⟨result, reader', hresult, hnext⟩ := mdWalkNext_stops h hw hactive hreader
      refine ⟨.corrupt, .inr rfl, ?_⟩
      rw [if_neg (by rw [hactive]; decide), bind_of_ok hnext]
      dsimp only
      rw [if_pos (by rcases hresult with rfl | rfl <;> decide)]
      rfl
    · refine ⟨m.missing, .inl rfl, ?_⟩
      rw [if_pos (Bool.eq_false_iff.mpr hactive)]
      rfl
  | cons r rs ih =>
    obtain ⟨fuel, rfl⟩ : ∃ k, fuel = k + 1 := ⟨fuel - 1, by omega⟩
    obtain ⟨reader', hnext, hrest, hreader'⟩ := mdWalkNext_passes h hw hreader
    rw [List.length_cons] at hfuel
    obtain ⟨e, he, hrun⟩ := ih hrest hreader' (show rs.length < fuel by omega)
    refine ⟨e, he, ?_⟩
    rw [readMdForSlotLoop, hw.active (List.cons_ne_nil _ _), if_neg (by decide), bind_of_ok hnext,
      List.find?_cons]
    dsimp only
    rw [if_neg (not_not.mpr rfl)]
    cases hmatch : mdRecordMatchesSlot r slot m with
    | true =>
      rw [if_pos rfl]
      rfl
    | false =>
      rw [if_neg Bool.false_ne_true]
      exact hrun

/-- `read_md_for_slot`. -/
theorem Recorded.readMdBy (h : Recorded S c n s all (claimedEnd 0 all) w) (m : MdSlotMatch) :
    ∃ e, (e = m.missing ∨ e = .corrupt) ∧ (readMdForSlotBy s slot m).run w =
      ((all.find? fun r => mdRecordMatchesSlot r slot m).elim (.error e) .ok, w) := by
  obtain ⟨footer, reader, hread, hreader, hcases⟩ := h.readFooter SectorReader.enter_new
  rw [readMdForSlotBy, bind_of_ok (run_getFs w), h.place.valid, if_neg (by decide), bind_of_ok hread]
  dsimp only
  rcases hcases with ⟨rfl, herased⟩ | ⟨-, herased, htype, hmagic, hlive⟩
  · refine ⟨m.missing, .inl rfl, ?_⟩
    rw [if_pos (.inl herased)]
    rfl
  · obtain ⟨hinit, hreader'⟩ := h.place.walkInit hreader
    rw [if_neg (by simp [herased, htype, hmagic, hlive]), bind_of_ok hinit]
    exact readMdForSlotLoop_run h h.before hreader' (h.place.sectorSize.symm ▸ h.length_lt)

theorem mdRecordMatchesSlot_live (slot : Nat) :
    (fun r => mdRecordMatchesSlot r slot .live) = liveFor slot :=
  funext fun _ => Bool.and_comm _ _

/-- `fffs_read_md_for_slot`. -/
theorem Filed.readMd {es : List Entry} (h : Filed S c n s es w) (slot : Nat) : (readMdForSlot s slot).run w =
    ((es.find? (Item.liveFor slot)).elim (.error .corrupt) fun e => .ok e.md, w) := by
  obtain ⟨e, he, hrun⟩ := @Recorded.readMdBy _ _ _ _ slot _ _ h.recorded .live
  obtain rfl : e = .corrupt := he.elim id id
  rw [readMdForSlot, hrun, mdRecordMatchesSlot_live, records_find]
  cases es.find? (Item.liveFor slot) <;> rfl

end Lookup

/-! ## Tombstones -/

section Tombstone

variable {S c n s slot lo hi : Nat} {all rs : List MdRecord} {es : List Entry} {w w' : World} {walk : MdWalk}
  {reader : SectorReader}

theorem dataFs_note (size : Nat) (fs : Fs) : dataFs (fsinfoNoteCommittedDelete size fs) = dataFs fs := by
  unfold fsinfoNoteCommittedDelete
  split
  · rfl
  · split <;> rfl

/-- The loop of `fffs_tombstone_metadata_for_slot` programs one byte at most. -/
theorem tombstoneMetadataLoop_run (h : Recorded S c n s all (claimedEnd 0 all) w) {d : Bool} {fuel : Nat}
    (hw : walk.Before S s all rs) (hreader : reader.Shows walk.sector walk.cursor w)
    (hfuel : rs.length < fuel) :
    (tombstoneMetadataLoop s slot d fuel reader walk).run w = (.ok false, w) ∨
      ∃ r accounted fs', rs.find? (liveFor slot) = some r ∧ dataFs fs' = dataFs w.fs ∧ (tombstoneMetadataLoop s slot d fuel reader walk).run w =
        (.ok accounted,
          { w.withMem (Nor.program w.dev.mem (s * S + r.recordStart) [lifecycleTombstoned]) [] with
            fs := fs' }) := by
  induction rs generalizing reader walk fuel with
  | nil =>
    obtain ⟨fuel, rfl⟩ : ∃ k, fuel = k + 1 := ⟨fuel - 1, by omega⟩
    refine .inl ?_
    rw [tombstoneMetadataLoop]
    by_cases hactive : walk.active = true
    · obtain ⟨result, reader', hresult, hnext⟩ := mdWalkNext_stops h hw hactive hreader
      rw [if_neg (by rw [hactive]; decide), bind_of_ok hnext]
      dsimp only
      rw [if_neg (by rcases hresult with rfl | rfl <;> decide),
        if_pos (by rcases hresult with rfl | rfl <;> decide)]
      rfl
    · rw [if_pos (Bool.eq_false_iff.mpr hactive)]
      rfl
  | cons r rs ih =>
    obtain ⟨fuel, rfl⟩ : ∃ k, fuel = k + 1 := ⟨fuel - 1, by omega⟩
    obtain ⟨reader', hnext, hrest, hreader'⟩ := mdWalkNext_passes h hw hreader
    rw [List.length_cons] at hfuel
    rw [tombstoneMetadataLoop, hw.active (List.cons_ne_nil _ _), if_neg (by decide), bind_of_ok hnext]
    dsimp only
    rw [if_neg (by decide), if_neg (not_not.mpr rfl)]
    split
    · next hother =>
      have hskip : liveFor slot r = false := Bool.eq_false_iff.mpr fun hfor => liveFor_iff.mp hfor hother
      rw [List.find?_cons, hskip]
      exact ih hrest hreader' (by omega)
    · next hmatch =>
      have hfound : (r :: rs).find? (liveFor slot) = some r := List.find?_cons_of_pos (liveFor_iff.mpr hmatch)
      have hlt := h.stacked.start_lt (hw.mem r List.mem_cons_self)
      rw [mdFileRecordSize] at hlt
      have hprogram := @SectorAt.program _ _ _ _ _ h.place r.recordStart [lifecycleTombstoned]
        (by rw [List.length_singleton]; omega)
      rw [bind_of_ok (run_getFs w), h.place.sectorSize, bind_of_ok hprogram]
      split
      · exact .inr ⟨r, true, fsinfoNoteCommittedDelete r.sizeOrOffset w.fs, hfound, dataFs_note _ _,
          bind_of_ok (run_modifyFs _ _)⟩
      · exact .inr ⟨r, false, w.fs, hfound, rfl, rfl⟩

/-- `fffs_tombstone_metadata_for_slot` returns, and programs one byte of the record it finds at most. -/
theorem Recorded.tombstones (h : Recorded S c n s all (claimedEnd 0 all) w) (slot : Nat) (d : Bool) :
    ∃ accounted w', (tombstoneMetadataForSlot s slot d).run w = (.ok accounted, w') ∧
      Inside S s (claimedEnd 0 all) S w w' ∧
        ∀ r, all.find? (liveFor slot) = some r → Inside S s r.recordStart S w w' := by
  obtain ⟨footer, reader, hread, hreader, hcases⟩ := h.readFooter SectorReader.enter_new
  obtain ⟨hinit, hreader'⟩ := h.place.walkInit hreader
  rw [tombstoneMetadataForSlot, bind_of_ok (run_getFs w), h.place.valid, if_neg (by decide), bind_of_ok hread]
  dsimp only
  rcases hcases with ⟨-, herased⟩ | ⟨-, herased, htype, hmagic, hlive⟩
  · rw [if_pos herased]
    exact ⟨false, w, rfl, .refl, fun _ _ => .refl⟩
  · have htomb : footer.tombstoneBits ≠ .cleared := by
      rw [(SectorFooter.isLive_iff.mp hlive).2]
      decide
    rw [herased, if_neg (by decide), if_neg (by simp [htype, hmagic]), if_neg fun hdead => htomb hdead.2,
      hlive, if_neg (by decide), bind_of_ok hinit]
    rcases @tombstoneMetadataLoop_run _ _ _ _ slot _ _ _ _ _ h d _ h.before hreader'
        (h.place.sectorSize.symm ▸ h.length_lt) with
      hrun | ⟨r, accounted, fs', hfound, hfs, hrun⟩
    · exact ⟨false, w, hrun, .refl, fun _ _ => .refl⟩
    · have hr := List.mem_of_find?_eq_some hfound
      have hlt := h.stacked.start_lt hr
      have hclaim := h.free_le.trans (h.stacked.lowest_le_start hr)
      rw [mdFileRecordSize] at hlt
      have hprogram : Inside S s r.recordStart S w
          (w.withMem (Nor.program w.dev.mem (s * S + r.recordStart) [lifecycleTombstoned]) []) :=
        Inside.refl.program le_rfl (by rw [List.length_singleton]; omega)
      have hin : Inside S s r.recordStart S w
          { w.withMem (Nor.program w.dev.mem (s * S + r.recordStart) [lifecycleTombstoned]) [] with fs := fs' } :=
        ⟨hprogram.plan, hprogram.size, hprogram.granule, hfs, hprogram.bytes⟩
      refine ⟨accounted, _, hrun, hin.mono hclaim le_rfl, fun r' hr' => ?_⟩
      rwa [← Option.some.inj (hfound.symm.trans hr')]

theorem Filed.length_le (h : Filed S c n s es w) {e : Entry} (he : e ∈ es) :
    e.md.dataEnd ≤ claimedEnd 0 (records es) ∧ claimedEnd 0 (records es) ≤ S := by
  have hlow := h.recorded.free_le
  have hle := h.recorded.stacked.lowest_le
  exact ⟨dataEnd_le_claimedEnd (List.mem_map_of_mem he), by omega⟩

/-- The files under the records stay when only bytes above them change. -/
theorem Filed.read_data (h : Filed S c n s es w) (hin : Inside S s lo hi w w')
    (hlo : claimedEnd 0 (records es) ≤ lo) {e : Entry} (he : e ∈ es) :
    Nor.read w'.dev.mem (s * S + e.md.dataOff) e.md.dataLen = e.file.image := by
  obtain ⟨hend, hle⟩ := h.length_le he
  rw [MdRecord.dataEnd] at hend
  rw [(hin.touches h.recorded.place.plan).read (by omega) (.inl (by omega)), h.data e he]

/-- `fffs_tombstone_metadata_for_slot` kills the first live record of the slot. -/
theorem Filed.tombstone (h : Filed S c n s es w) (slot : Nat) (d : Bool) :
    ∃ accounted w', (tombstoneMetadataForSlot s slot d).run w = (.ok accounted, w') ∧ Inside S s 0 S w w' ∧
      Filed S c n s (Item.killFirst slot es) w' := by
  obtain ⟨accounted, w', hrun, hin, -⟩ := h.recorded.tombstones slot d
  refine ⟨accounted, w', hrun, hin.mono (Nat.zero_le _) le_rfl, ?_⟩
  have hrecorded := h.recorded.tombstone hrun
  rw [← records_killFirst, ← claimedEnd_updateFirst (p := liveFor slot) (f := MdRecord.kill) (fun _ => rfl),
    ← records_killFirst] at hrecorded
  refine ⟨hrecorded, fun e he => ?_, fun e he => ?_⟩
  · rcases Item.mem_killFirst he with hold | ⟨e', he', -, rfl⟩
    · exact h.whole e hold
    · exact (h.whole e' he').kill
  · rcases Item.mem_killFirst he with hold | ⟨e', he', -, rfl⟩
    · exact h.read_data hin le_rfl hold
    · exact h.read_data (e := e') hin le_rfl he'

end Tombstone

/-! ## Windows -/

section Window

variable {S c n s slot minFree k : Nat} {normal : Bool} {all rs : List MdRecord} {es : List Entry}
  {w w' : World} {walk : MdWalk} {reader : SectorReader} {win : FreeWindow} {res : Except Status FreeWindow}

/-- A search that finds a window has met no live record of the slot it rejects. -/
theorem freeWindowLoop_lacks (h : Recorded S c n s all (claimedEnd 0 all) w) {fuel : Nat}
    {scan scan' : WindowScan} (hw : walk.Before S s all rs) (hreader : reader.Shows walk.sector walk.cursor w)
    (hfuel : rs.length < fuel) (hrun : (freeWindowLoop s slot normal fuel reader walk scan).run w = (.ok scan', w')) :
    rs.find? (liveFor slot) = none := by
  induction rs generalizing reader walk fuel scan with
  | nil => rfl
  | cons r rs ih =>
    obtain ⟨fuel, rfl⟩ : ∃ k, fuel = k + 1 := ⟨fuel - 1, by omega⟩
    obtain ⟨reader', hnext, hrest, hreader'⟩ := mdWalkNext_passes h hw hreader
    rw [List.length_cons] at hfuel
    rw [freeWindowLoop, hw.active (List.cons_ne_nil _ _), if_neg (by decide), bind_of_ok hnext] at hrun
    dsimp only at hrun
    split at hrun
    · obtain ⟨_, _, -, hthrow⟩ := bind_ok hrun
      cases hthrow
    · split at hrun
      · cases hrun
      · next hother =>
        have hskip : ¬ liveFor slot r = true := by
          rw [liveFor, Bool.and_eq_true, beq_iff_eq]
          exact hother
        rw [List.find?_cons_of_neg hskip]
        exact ih hrest hreader' (by omega) hrun

/-- Every small file takes three bytes. -/
theorem claimedEnd_ge (hlen : ∀ r ∈ rs, k ≤ r.dataOff ∧ 3 ≤ r.dataLen)
    (hapart : rs.Pairwise fun r r' => r.dataEnd ≤ r'.dataOff) : k + 3 * rs.length ≤ claimedEnd k rs := by
  induction rs generalizing k with
  | nil => exact Nat.le_refl _
  | cons r rs ih =>
    obtain ⟨hr, hrs⟩ := List.pairwise_cons.mp hapart
    obtain ⟨hoff, hthree⟩ := hlen r List.mem_cons_self
    have hend : max k r.dataEnd = r.dataEnd := by rw [MdRecord.dataEnd]; omega
    have hrest := ih (k := r.dataEnd) (fun r' hr' => ⟨hr r' hr', (hlen r' (List.mem_cons_of_mem r hr')).2⟩) hrs
    rw [claimedEnd, hend, List.length_cons]
    rw [MdRecord.dataEnd] at *
    omega

/-- The window is between the files and the records, and no version of the slot's file is live
in the sector. -/
structure Vacant (S : Nat) (es : List Entry) (slot minFree : Nat) (win : FreeWindow) : Prop where
  off : win.dataOff = claimedEnd 0 (records es)
  place : win.recordOff + mdFileRecordSize = lowest (S - sectorFooterSize) (records es)
  room : win.dataOff + minFree ≤ win.recordOff
  above : sectorFooterSize ≤ win.recordOff
  footer : win.needsFooter = decide (es = [])
  lacks : Item.Lacks slot es

theorem Recorded.find_lacks (h : Recorded S c n s all (claimedEnd 0 all) w)
    (hrun : (findSectorFreeWindow s minFree slot normal).run w = (.ok win, w')) :
    all.find? (liveFor slot) = none := by
  obtain ⟨footer, reader, hread, hreader, hcases⟩ := h.readFooter SectorReader.enter_new
  rcases hcases with ⟨rfl, -⟩ | ⟨-, herased, htype, hmagic, hlive⟩
  · rfl
  · rw [findSectorFreeWindow, bind_of_ok (run_getFs w), h.place.valid, if_neg (by decide),
      bind_of_ok hread] at hrun
    dsimp only at hrun
    rw [herased, if_neg (by decide), if_neg (by simp [htype, hmagic, hlive])] at hrun
    split at hrun
    · cases hrun
    · obtain ⟨hinit, hreader'⟩ := h.place.walkInit hreader
      rw [bind_of_ok hinit] at hrun
      obtain ⟨scan, w1, hloop, -⟩ := bind_ok hrun
      exact freeWindowLoop_lacks h h.before hreader' (h.place.sectorSize.symm ▸ h.length_lt) hloop

/-- The window of a sector with files. -/
theorem Filed.window_ok (h : Filed S c n s es w) (hS : S ≤ 65536) (hmin : 0 < minFree)
    (hrun : (findSectorFreeWindow s minFree slot normal).run w = (.ok win, w')) :
    Vacant S es slot minFree win := by
  have hge := h.recorded.place.size_ge
  have hlacks : Item.Lacks slot es := by
    have hnone := h.recorded.find_lacks hrun
    rw [records_find, Option.map_eq_none_iff] at hnone
    exact Item.lacks_iff.mpr hnone
  have hlow := h.recorded.stacked.lowest_eq
  have hthree := @claimedEnd_ge 0 (records es)
    (fun r hr => by
      obtain ⟨e, he, rfl⟩ := List.mem_map.mp hr
      exact ⟨Nat.zero_le _, (h.whole e he).len_ge⟩) h.recorded.apart
  have hclaim := h.recorded.free_le
  rw [mdFileRecordSize, sectorFooterSize] at hlow
  by_cases hroom : mdFileRecordSize * ((records es).length + 1) + 2 * sectorFooterSize ≤ S
  · obtain ⟨hoff, hplace, hle, hfooter⟩ := h.recorded.find_ok hS hroom hrun
    rw [mdFileRecordSize, sectorFooterSize] at hroom
    refine ⟨hoff, hplace, hle, ?_, ?_, hlacks⟩
    · rw [mdFileRecordSize, sectorFooterSize] at hplace
      rw [sectorFooterSize]
      omega
    · rw [hfooter, Bool.eq_iff_iff, decide_eq_true_eq, decide_eq_true_eq, List.map_eq_nil_iff]
  · -- the records would leave no place for one more, above files that are three bytes each
    exfalso
    rw [mdFileRecordSize, sectorFooterSize] at hroom
    have hne : es ≠ [] := by
      rintro rfl
      simp only [List.map_nil, List.length_nil] at hroom
      omega
    obtain ⟨footer, reader, hread, -, hcases⟩ := h.recorded.readFooter SectorReader.enter_new
    obtain ⟨-, herased, -⟩ := hcases.resolve_left fun hnil => hne (List.map_eq_nil_iff.mp hnil.1)
    rcases findSectorFreeWindow_ok h.recorded.place.plan h.recorded.place.scratch hrun with
      ⟨-, -, hblank⟩ | ⟨rs', count, hvisited, -, -, hfit, -⟩
    · obtain ⟨reader', hseen, -⟩ := h.recorded.place.readFooter SectorReader.enter_new
      rw [hseen] at hread
      cases hread
      have hall : flashBytesErased
          (Nor.read w.dev.mem (s * S + (S - sectorFooterSize)) sectorFooterSize) = true := by
        refine flashBytesErased_of_blank fun i hlo hhi => ?_
        rw [h.recorded.place.sectorSize] at hblank
        rw [← Nat.add_sub_cancel' (show s * S ≤ i by omega)]
        exact hblank _ (by rw [sectorFooterSize] at *; omega)
      exact absurd hall (Bool.eq_false_iff.mp herased)
    · rw [visited_recorded h.recorded] at hvisited
      subst hvisited
      rw [h.recorded.place.sectorSize, mdFileRecordSize, sectorFooterSize] at hfit
      omega

/-- `fffs_find_sector_free_window` leaves the files alone. -/
theorem Filed.find (h : Filed S c n s es w)
    (hrun : (findSectorFreeWindow s minFree slot normal).run w = (res, w')) :
    Inside S s (S - sectorFooterSize) S w w' ∧ Filed S c n s es w' := by
  have hp := h.recorded.place
  have hin : Inside S s (S - sectorFooterSize) S w w' := by
    have hkept := (keeps_findWindow (keeps_insideFull hp) minFree slot normal).keeps w .refl
    rw [hrun] at hkept
    exact hkept
  have hlow := h.recorded.stacked.lowest_le
  have hclaim := h.recorded.free_le
  exact ⟨hin, h.recorded.find hrun, h.whole,
    fun e he => h.read_data hin (hclaim.trans hlow) he⟩

end Window

/-! ## A new root -/

section Program

variable {S c n s slot minFree len : Nat} {es : List Entry} {f : SmallFile} {win : FreeWindow} {w w1 : World}

theorem markSectorUsed_run [Opts] (hp : SectorAt S c n s w) :
    ∃ w', (markSectorUsed s).run w = (.ok (), w') ∧ Inside S s (S - sectorFooterSize) S w w' := by
  have hge := hp.size_ge
  have hoff : sectorFooterOffset w.fs s + 5 = s * S + (S - sectorFooterSize + 5) := by
    rw [sectorFooterOffset, hp.sectorSize, sectorFooterSize]
    omega
  have hle : S - sectorFooterSize + 5 + [lifecycleFull].length ≤ S := by
    rw [sectorFooterSize, List.length_singleton]
    omega
  have hfull : (markSectorFull s).run w =
      (.ok (), w.withMem (Nor.program w.dev.mem (s * S + (S - sectorFooterSize + 5)) [lifecycleFull]) []) := by
    rw [markSectorFull, bind_of_ok (run_getFs w), hoff]
    exact hp.program hle
  have hmap := (inferInstance : Keeps (Inside S s (S - sectorFooterSize) S w) (allocMapMarkUsed s)).keeps _
    (Inside.refl.program (Nat.le_add_right _ _) hle)
  exact ⟨_, bind_of_ok hfull, hmap⟩

/-- `fffs_program_extent_metadata` returns, and changes the sector from the record on. -/
theorem programExtentMetadata_run [Opts] {dataOff recordOff dataLen spanLen sizeOrOffset next : Nat} {type : Byte}
    {footer live : Bool} (hp : SectorAt S c n s w) (htype : type = mdTypeFileRootV1 ∨ type = mdTypeFileContV1)
    (hplace : recordOff + mdFileRecordSize + (if footer then sectorFooterSize else 0) ≤ S) :
    ∃ w', (programExtentMetadata s slot type dataOff recordOff footer dataLen spanLen sizeOrOffset next
        live).run w = (.ok (), w') ∧ Inside S s (min recordOff (S - sectorFooterSize)) S w w' := by
  rw [programExtentMetadata, if_neg fun hno => htype.elim hno.1 hno.2, bind_of_ok (run_getFs w)]
  dsimp only
  generalize hmd : encodeExtentMetadata slot type dataOff dataLen spanLen sizeOrOffset next live = md
  have hlen : md.length = mdFileRecordSize := by
    rw [← hmd, encodeExtentMetadata_eq slot type dataOff recordOff, MdRecord.length_bytes]
  obtain ⟨bytes, v, hserial, hbytes, hv⟩ : ∃ bytes v, (if footer then do
        let serial ← claimSectorSerial
        pure (encodeSectorFooter serial true)
      else pure [] : M (List Byte)).run w = (.ok bytes, v) ∧
        bytes.length = (if footer then sectorFooterSize else 0) ∧
        Inside S s (min recordOff (S - sectorFooterSize)) S w v := by
    cases footer with
    | false => exact ⟨[], w, rfl, rfl, .refl⟩
    | true =>
      have hclaim : claimSectorSerial.run w = (.ok w.fs.nextSectorSerial, (claimSectorSerial.run w).2) :=
        run_eq_of_fst rfl
      have hkept := (inferInstance : Keeps (Inside S s (min recordOff (S - sectorFooterSize)) S w)
        claimSectorSerial).keeps w .refl
      exact ⟨_, _, bind_of_ok hclaim, rfl, hkept⟩
  have hp1 := hv.place hp
  have hle : recordOff + (md ++ bytes).length ≤ S := by
    rw [List.length_append, hlen, hbytes]
    omega
  rw [bind_of_ok hserial, hp.sectorSize, bind_of_ok (hp1.program hle)]
  have h2 := hv.program (Nat.min_le_left _ _) hle
  rw [Prog.when]
  split
  · obtain ⟨v', hrun, hmark⟩ := markSectorUsed_run (h2.place hp)
    exact ⟨v', hrun, h2.trans (hmark.mono (Nat.min_le_right _ _) le_rfl)⟩
  · exact ⟨_, rfl, h2⟩

/-- The entry of a file that is put into the window. -/
def rootEntry (slot : Nat) (win : FreeWindow) (f : SmallFile) : Entry where
  md := extentRecord slot mdTypeFileRootV1 win.dataOff win.recordOff f.image.length 1 f.bytes.length 0 true
  file := f

theorem rootEntry_whole (hname : NameOk f.name) (hslot : NameSlot slot) : (rootEntry slot win f).Whole where
  type := rfl
  state := (by decide : lifecycleValid ≠ blank)
  span := rfl
  next := rfl
  len := rfl
  size := rfl
  name := hname
  slot := hslot

theorem Vacant.record_le (hwin : Vacant S es slot minFree win) (h : Filed S c n s es w) :
    win.recordOff + mdFileRecordSize ≤ S - sectorFooterSize := by
  rw [hwin.place]
  exact h.recorded.stacked.lowest_le

/-- A record of the window can be encoded. -/
theorem Vacant.encodable (hwin : Vacant S es slot minFree win) (h : Filed S c n s es w) (hS : S ≤ 65536)
    (hfit : win.dataOff + f.image.length ≤ win.recordOff) (hslot : NameSlot slot) (hname : NameOk f.name) :
    f.image.length < 65536 ∧ f.bytes.length < 4294967296 ∧ win.dataOff < 65536 ∧ slot < 65536 := by
  have hle := hwin.record_le h
  have hlen := SmallFile.length_image hname
  have hlt := hslot.2
  rw [mdFileRecordSize, sectorFooterSize] at hle
  rw [uint16Max] at hlt
  omega

/-- What has been written between the data and the records is where a new entry has its file. -/
theorem Filed.drafted (h : Filed S c n s es w) (hwin : Vacant S es slot minFree win)
    (hfit : win.dataOff + len ≤ win.recordOff) (hin : Inside S s win.dataOff (win.dataOff + len) w w1) :
    Recorded S c n s (records es) (win.dataOff + len) w1 ∧
      ∀ e ∈ es, Nor.read w1.dev.mem (s * S + e.md.dataOff) e.md.dataLen = e.file.image := by
  have hplace := hwin.place
  have hoff := hwin.off
  refine ⟨h.recorded.outside (hin.touches h.recorded.place.plan) (by omega) (by omega), fun e he => ?_⟩
  exact h.read_data hin hoff.ge he

/-- A sector with one more file. -/
theorem Filed.append (hwin : Vacant S es slot minFree win) (hslot : NameSlot slot) (hname : NameOk f.name)
    (hrecorded : Recorded S c n s (records es ++ [(rootEntry slot win f).md]) (win.dataOff + f.image.length) w)
    (hwhole : ∀ e ∈ es, e.Whole)
    (hdata : ∀ e ∈ es, Nor.read w.dev.mem (s * S + e.md.dataOff) e.md.dataLen = e.file.image)
    (hnew : Nor.read w.dev.mem (s * S + win.dataOff) f.image.length = f.image) :
    Filed S c n s (es ++ [rootEntry slot win f]) w := by
  have hoff := hwin.off
  have hrecords : records (es ++ [rootEntry slot win f]) = records es ++ [(rootEntry slot win f).md] := by
    rw [records, List.map_append]
    rfl
  have hend : claimedEnd 0 (records es ++ [(rootEntry slot win f).md]) = win.dataOff + f.image.length := by
    rw [claimedEnd_append, ← hoff]
    exact Nat.max_eq_right (Nat.le_add_right _ _)
  refine ⟨?_, fun e he => ?_, fun e he => ?_⟩
  · rw [hrecords, hend]
    exact hrecorded
  · rcases List.mem_append.mp he with hold | hnew
    · exact hwhole e hold
    · rw [List.mem_singleton.mp hnew]
      exact rootEntry_whole hname hslot
  · rcases List.mem_append.mp he with hold | hone
    · exact hdata e hold
    · rw [List.mem_singleton.mp hone]
      exact hnew

/-- `fffs_program_extent_metadata` of a root whose data have been put into the window. -/
theorem Filed.programRecord [Opts] {spanLen size : Nat} {live : Bool} (h : Filed S c n s es w)
    (hwin : Vacant S es slot minFree win) (hfit : win.dataOff + f.image.length ≤ win.recordOff)
    (hin : Inside S s win.dataOff (win.dataOff + f.image.length) w w1)
    (hnew : Nor.read w1.dev.mem (s * S + win.dataOff) f.image.length = f.image)
    (hencodable : (extentRecord slot mdTypeFileRootV1 win.dataOff win.recordOff f.image.length spanLen size 0
      live).Encodable)
    (hlinked : (extentRecord slot mdTypeFileRootV1 win.dataOff win.recordOff f.image.length spanLen size 0
      live).Linked c n s) :
    ∃ w2, (programExtentMetadata s slot mdTypeFileRootV1 win.dataOff win.recordOff win.needsFooter
        f.image.length spanLen size 0 live).run w1 = (.ok (), w2) ∧ Inside S s 0 S w w2 ∧
      Recorded S c n s (records es ++ [extentRecord slot mdTypeFileRootV1 win.dataOff win.recordOff f.image.length
        spanLen size 0 live]) (win.dataOff + f.image.length) w2 ∧
      (∀ e ∈ es, Nor.read w2.dev.mem (s * S + e.md.dataOff) e.md.dataLen = e.file.image) ∧
      Nor.read w2.dev.mem (s * S + win.dataOff) f.image.length = f.image := by
  obtain ⟨hrecorded, hdata⟩ := h.drafted hwin hfit hin
  have hle := hwin.record_le h
  have hp := h.recorded.place
  have hge := hp.size_ge
  have hfooter : win.recordOff + mdFileRecordSize + (if win.needsFooter then sectorFooterSize else 0) ≤ S := by
    rw [mdFileRecordSize, sectorFooterSize] at *
    split <;> omega
  obtain ⟨w2, hrun, hin2⟩ := @programExtentMetadata_run S c n s slot w1 _ win.dataOff win.recordOff
    f.image.length spanLen size 0 _ win.needsFooter live (hin.place hp) (.inl rfl) hfooter
  have hmin : win.dataOff + f.image.length ≤ min win.recordOff (S - sectorFooterSize) :=
    Nat.le_min.mpr ⟨hfit, by rw [mdFileRecordSize] at hle; omega⟩
  have hfirst : win.needsFooter = decide (records es = []) := by
    rw [hwin.footer, Bool.eq_iff_iff, decide_eq_true_eq, decide_eq_true_eq, List.map_eq_nil_iff]
  have hread : ∀ {off k : Nat}, off + k ≤ win.dataOff + f.image.length →
      Nor.read w2.dev.mem (s * S + off) k = Nor.read w1.dev.mem (s * S + off) k := by
    intro off k hoffk
    refine (hin2.touches (hin.place hp).plan).read ?_ (.inl (by omega))
    rw [mdFileRecordSize] at hle
    omega
  refine ⟨w2, hrun, (hin.mono (Nat.zero_le _) ?_).trans (hin2.mono (Nat.zero_le _) le_rfl),
    hrecorded.program hwin.off hwin.place hwin.above hfit hfirst hencodable hlinked hrun, fun e he => ?_, ?_⟩
  · rw [mdFileRecordSize] at hle
    omega
  · have hend := (h.length_le he).1
    have hoff := hwin.off
    rw [MdRecord.dataEnd] at hend
    rw [hread (by omega), hdata e he]
  · rw [hread le_rfl, hnew]

/-- `fffs_program_extent_metadata` for a file of one extent whose data have been copied to the window. -/
theorem Filed.program [Opts] (h : Filed S c n s es w) (hS : S ≤ 65536) (hwin : Vacant S es slot minFree win)
    (hfit : win.dataOff + f.image.length ≤ win.recordOff) (hslot : NameSlot slot) (hname : NameOk f.name)
    (hin : Inside S s win.dataOff (win.dataOff + f.image.length) w w1)
    (hnew : Nor.read w1.dev.mem (s * S + win.dataOff) f.image.length = f.image) :
    ∃ w2, (programExtentMetadata s slot mdTypeFileRootV1 win.dataOff win.recordOff win.needsFooter
        f.image.length 1 f.bytes.length 0 true).run w1 = (.ok (), w2) ∧ Inside S s 0 S w w2 ∧
      Filed S c n s (es ++ [rootEntry slot win f]) w2 := by
  obtain ⟨hlen, hsize, hoff, hlt⟩ := hwin.encodable h hS hfit hslot hname
  have hencodable : (rootEntry slot win f).md.Encodable := {
    slot := hlt
    next := (by decide : 0 < 65536)
    spanLen := (by decide : 1 < 65536)
    dataOff := hoff
    dataLen := hlen
    sizeOrOffset := by
      rw [rootEntry, extentRecord]
      dsimp only
      rw [if_neg (by simp)]
      exact hsize
    live := (by decide : true = stateIsLive lifecycleValid) }
  have hlinked : (rootEntry slot win f).md.Linked c n s :=
    .inr ⟨(by decide : 1 ≠ 0), h.recorded.place.lt, .inl rfl⟩
  obtain ⟨w2, hrun, hin2, hrecorded, hdata, hdata2⟩ := h.programRecord hwin hfit hin hnew hencodable hlinked
  exact ⟨w2, hrun, hin2, Filed.append hwin hslot hname hrecorded h.whole hdata hdata2⟩

end Program

/-! ## Sectors that are left alone, erased and condemned -/

section Whole

variable {S c n s t slot minFree lo hi : Nat} {normal : Bool} {es : List Entry} {w w' : World}

/-- A change elsewhere. -/
theorem Filed.elsewhere (h : Filed S c n s es w) (ht : Touches S s 0 0 w w') : Filed S c n s es w' := by
  refine ⟨h.recorded.elsewhere ht, h.whole, fun e he => ?_⟩
  obtain ⟨hend, hle⟩ := h.length_le he
  rw [MdRecord.dataEnd] at hend
  rw [ht.read (by omega) (.inr (Nat.zero_le _)), h.data e he]

theorem Condemned.elsewhere (h : Condemned S c n s w) (ht : Touches S s 0 0 w w') : Condemned S c n s w' := by
  have hge := h.place.size_ge
  obtain ⟨es, w0, hfiled, hdead, ht0⟩ := h.records
  refine ⟨h.place.touch ht, ?_, es, w0, hfiled, hdead,
    ht0.trans { ht with bytes := fun a ha _ => ht.bytes a ha (.inr (Nat.zero_le _)) }⟩
  rw [ht.read (by rw [sectorFooterSize]; omega) (.inr (Nat.zero_le _))]
  exact h.footer

/-- The walk does not see the footer. -/
theorem directNext_touches {w0 : World} {walk : MdWalk} {res : Except Status (MdWalk × MdRecord × MdWalkResult)}
    (hp : SectorAt S c n s w0) (ht : Touches S s (S - sectorFooterSize) S w0 w) (hs : walk.sector = s)
    (hcursor : walk.cursor ≤ S - sectorFooterSize) (h : (Direct.mdWalkNext walk).run w0 = (res, w0)) :
    (Direct.mdWalkNext walk).run w = (res, w) := by
  have hp' := hp.touch ht
  have hview : ∀ {v : World}, SectorAt S c n s v → ∀ {off k : Nat}, off + k ≤ S - sectorFooterSize →
      k ≤ mdPreloadMax → (Direct.sectorReaderView s off k).run v = (.ok (Nor.read v.dev.mem (s * S + off) k), v) :=
    fun hv _ _ hle hk => hv.view (hle.trans (Nat.sub_le _ _)) hk
  have hread : ∀ {off k : Nat}, off + k ≤ S - sectorFooterSize →
      Nor.read w.dev.mem (s * S + off) k = Nor.read w0.dev.mem (s * S + off) k :=
    fun hle => ht.read (hle.trans (Nat.sub_le _ _)) (.inl hle)
  rw [Direct.mdWalkNext] at h ⊢
  split
  · next hinactive =>
    rw [if_pos hinactive] at h
    cases h
    rfl
  next hactive =>
  rw [if_neg hactive] at h
  split
  · next hend =>
    rw [if_pos hend] at h
    cases h
    rfl
  next hmore =>
  rw [if_neg hmore, hs] at h
  rw [hs]
  have hdecode : ∃ res', (Direct.decodeFileMdRecord s walk.cursor).run w0 = (res', w0) ∧
      (Direct.decodeFileMdRecord s walk.cursor).run w = (res', w) := by
    have h1 : walk.cursor - 1 + 1 ≤ S - sectorFooterSize := by omega
    rw [Direct.decodeFileMdRecord, bind_of_ok (run_getFs w0), bind_of_ok (run_getFs w),
      bind_of_ok (hview hp h1 (by decide)), bind_of_ok (hview hp' h1 (by decide)), hread h1]
    dsimp only
    split
    · exact ⟨_, rfl, rfl⟩
    · split
      · exact ⟨_, rfl, rfl⟩
      · next hlong =>
        split
        · exact ⟨_, rfl, rfl⟩
        · have h2 : walk.cursor - mdFileRecordSize + mdFileRecordSize ≤ S - sectorFooterSize := by omega
          rw [bind_of_ok (hview hp h2 (by decide)), bind_of_ok (hview hp' h2 (by decide)), hread h2]
          split
          · exact ⟨_, rfl, rfl⟩
          · refine ⟨_, rfl, ?_⟩
            rw [mdRecordOk, mdRecordOk, ht.sectorCount, ht.indexSectors]
            rfl
  obtain ⟨res', h0, h1⟩ := hdecode
  cases res' with
  | error e =>
    rw [bind_of_error h0] at h
    rw [bind_of_error h1]
    cases h
    rfl
  | ok a =>
    rw [bind_of_ok h0] at h
    rw [bind_of_ok h1]
    obtain ⟨r, result⟩ := a
    dsimp only at h ⊢
    by_cases hrecord : result = .record
    · rw [if_pos hrecord] at h ⊢
      cases h
      rfl
    · rw [if_neg hrecord] at h ⊢
      cases h
      rfl

/-- No window is found in a condemned sector. -/
theorem Condemned.find (h : Condemned S c n s w) :
    (findSectorFreeWindow s minFree slot normal).run w = (.error .noSpace, w) := by
  have hdead : (decodeSectorFooter
      (Nor.read w.dev.mem (s * S + (S - sectorFooterSize)) sectorFooterSize)).isLive = false := by
    rw [← Bool.not_eq_true, SectorFooter.isLive_iff, h.footer.tombstone]
    exact fun hlive => by cases hlive.2
  obtain ⟨reader, hseen, -⟩ := h.place.readFooter SectorReader.enter_new
  rw [findSectorFreeWindow, bind_of_ok (run_getFs w), h.place.valid, if_neg (by decide),
    bind_of_ok hseen]
  dsimp only
  rw [h.footer.erased, if_neg (by decide), if_pos (.inr (.inr hdead))]
  rfl

/-- An erased sector holds no files. -/
theorem filed_blank (hp : SectorAt S c n s w)
    (hblank : ∀ a, a < S → Nor.get w.dev.mem (s * S + a) = blank) : Filed S c n s [] w :=
  ⟨recorded_blank hp hblank, fun _ he => (by cases he), fun _ he => (by cases he)⟩

theorem eraseDataSector_run (hp : SectorAt S c n s w) : ∃ w', (eraseDataSector s).run w = (.ok (), w') ∧
    Inside S s 0 S w w' ∧ Filed S c n s [] w' := by
  have hin := hp.inside
  rw [Nat.succ_mul] at hin
  have herase : w.dev.erase (s * S) S = (true, { w.dev with
      mem := Nor.erase w.dev.mem (s * S) S, plan := Device.nextPlan w.dev.plan }) := by
    rw [Device.erase]
    dsimp only
    rw [if_pos (show s * S + S ≤ w.dev.mem.size from hin), hp.plan]
  generalize hw' : ({ (w.withMem (Nor.erase w.dev.mem (s * S) S) (Device.nextPlan w.dev.plan)) with
    trace := ⟨.erase s, w.fs, w.files⟩ :: w.trace } : World) = w'
  have hrun : (eraseDataSector s).run w = (.ok (), w') := by
    rw [eraseDataSector, bind_of_ok (run_getFs w), bind_of_ok (run_note _ w), hp.sectorSize]
    simp only [backendErase, herase]
    exact congrArg _ hw'
  have hinside : Inside S s 0 S w w' := by
    rw [← hw']
    refine ⟨fun hplan => nextPlan_nil hplan, rfl, rfl, rfl, fun a ha => ?_⟩
    change Nor.get (Nor.erase w.dev.mem (s * S) S) a = _
    rw [Nor.get_erase, if_neg (by omega)]
  refine ⟨w', hrun, hinside, filed_blank (hinside.place hp) fun a ha => ?_⟩
  rw [← hw']
  change Nor.get (Nor.erase w.dev.mem (s * S) S) _ = _
  rw [Nor.get_erase, if_pos (by omega)]

theorem decodeSectorFooter_tombstoned (serial : Nat) (full : Bool) :
    (decodeSectorFooter (storeLe32 serial ++ List.zipWith (· &&& ·)
        [sectorTypeFile, if full then lifecycleValid &&& lifecycleFull else lifecycleValid, 0x46#8, 0x46#8]
        [sectorTypeFile, lifecycleTombstoned, blank, blank] ++ [0x53#8, 0x44#8])).Tombstoned where
  erased := by
    change List.all _ _ = false
    rw [List.all_eq_false]
    exact ⟨sectorTypeFile, by simp [sectorTypeFile], by decide⟩
  type := rfl
  magic := rfl
  valid := by
    change lifecycleValidPair ((if full then lifecycleValid &&& lifecycleFull else lifecycleValid) &&&
      lifecycleTombstoned) ≠ .mixed
    cases full <;> decide
  tombstone := by
    change lifecycleTombstonePair ((if full then lifecycleValid &&& lifecycleFull else lifecycleValid) &&&
      lifecycleTombstoned) = .cleared
    cases full <;> decide

/-- `fffs_tombstone_sector` condemns a sector with dead records. -/
theorem Filed.condemn (h : Filed S c n s es w) (hne : es ≠ []) (hdead : ∀ e ∈ es, e.md.live = false) :
    ∃ w', (tombstoneSector s).run w = (.ok (), w') ∧ Inside S s 0 S w w' ∧ Condemned S c n s w' := by
  have hp := h.recorded.place
  have hge := hp.size_ge
  have hoff : sectorFooterOffset w.fs s + 4 = s * S + (S - sectorFooterSize + 4) := by
    rw [sectorFooterOffset, hp.sectorSize, sectorFooterSize]
    omega
  have hle : S - sectorFooterSize + 4 + [sectorTypeFile, lifecycleTombstoned, blank, blank].length ≤ S := by
    change S - sectorFooterSize + 4 + 4 ≤ S
    rw [sectorFooterSize]
    omega
  have hin : Inside S s (S - sectorFooterSize) S w (w.withMem (Nor.program w.dev.mem
      (s * S + (S - sectorFooterSize + 4)) [sectorTypeFile, lifecycleTombstoned, blank, blank]) []) :=
    Inside.refl.program (Nat.le_add_right _ _) hle
  refine ⟨_, ?_, hin.mono (Nat.zero_le _) le_rfl, hin.place hp, ?_, es, w, h, hdead, hin.touches hp.plan⟩
  · rw [tombstoneSector, bind_of_ok (run_getFs w), hoff]
    exact hp.program hle
  · have hne' : records es ≠ [] := fun hnil => hne (List.map_eq_nil_iff.mp hnil)
    obtain ⟨serial, full, hfooter⟩ := (h.recorded.footer.resolve_left fun hnil => hne' hnil.1).2
    have hsplit : footerBytes serial full = storeLe32 serial ++ [sectorTypeFile,
        if full then lifecycleValid &&& lifecycleFull else lifecycleValid, 0x46#8, 0x46#8] ++ [0x53#8, 0x44#8] := rfl
    have hread := Nor.read_program_part (x := [sectorTypeFile, lifecycleTombstoned, blank, blank])
      (hfooter.trans hsplit) (k := 4) rfl rfl
    rw [Nat.add_assoc] at hread
    change (decodeSectorFooter (Nor.read (Nor.program _ _ _) _ _)).Tombstoned
    rw [hread]
    exact decodeSectorFooter_tombstoned serial full

end Whole

end Fastffs
