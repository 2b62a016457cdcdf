import Fastffs.Append
import Fastffs.Entries
import Fastffs.RamIndex

/-!
# The store of small files

A file system that holds small files only is a set of shelves: the data sectors are the
shelves, the root records are the items, and the index says where the current root of a slot
is.  `Stored` says that a world holds the shelves `st`, and which of its sectors are condemned.
`Kept` adds that each live root holds the current version of its file, and says which files
these are.

The collector stops in the middle of a sector and goes on later.  What it has found so far is
in `gc_md`, and `GcWalk` says that this still fits the sector.
-/

namespace Fastffs

open Prog
open Nor (Byte Mem blank)

/-- The collector has passed the entries `front` of the sector, and if it has seen none of them
live, none of them is. -/
structure GcWalk (S n c : Nat) (st : Shelves Nat Nat Entry) (bad : Nat → Prop) (md : MdWalk) : Prop where
  data : InData n c md.sector
  good : ¬ bad md.sector
  split : ∃ front back, st.items md.sector = front ++ back ∧
    md.cursor = lowest (S - sectorFooterSize) (records front) ∧
    md.claimedDataEnd = claimedEnd 0 (records front) ∧ md.claimedDataEnd < md.cursor ∧
    (md.liveSeen = false → ∀ e ∈ front, e.md.live = false)

/-- The flash holds the shelves.  The sectors of `bad` are condemned. -/
structure Shelved [Opts] (S c n : Nat) (st : Shelves Nat Nat Entry) (bad : Nat → Prop) (w : World) : Prop where
  small : S ≤ 65536
  granule : w.dev.programGranule ≤ mdFileRecordSize + sectorFooterSize
  indexSectors : w.fs.indexSectors = n
  sectorSize : w.fs.sectorSize = S
  sectorCount : w.fs.sectorCount = c
  index : ∃ logs, RunState w logs ∧ ∀ k, st.head k = headOf (logMap logs.flatten k)
  filed : ∀ s, InData n c s → ¬ bad s → Filed S c n s (st.items s) w
  condemned : ∀ s, InData n c s → bad s → st.items s = [] ∧ Condemned S c n s w
  outside : ∀ s, ¬ InData n c s → st.items s = []

/-- The world holds the shelves, and the collector stands somewhere in them. -/
structure Stored [Opts] (S c n : Nat) (st : Shelves Nat Nat Entry) (bad : Nat → Prop) (w : World) : Prop
    extends Shelved S c n st bad w where
  walk : w.fs.gcMd.active = true → GcWalk S n c st bad w.fs.gcMd

/-- The world holds the files `F` in the shelves `st`, and no handle is open.  `exact` says
whether there are other live roots than the current ones. -/
structure Holds [Opts] (S c n : Nat) (exact : Prop) (F : Nat → Option SmallFile) (st : Shelves Nat Nat Entry)
    (bad : Nat → Prop) (w : World) : Prop where
  idle : w.fs.openFiles = []
  stored : Stored S c n st bad w
  tidy : st.Tidy
  exact : exact → st.Exact
  get : st.get = F

/-- The world holds the files `F`, each in the slot of its name. -/
def Kept [Opts] (S c n : Nat) (exact : Prop) (F : Nat → Option SmallFile) (w : World) : Prop :=
  ∃ st bad, Holds S c n exact F st bad w

section Records

variable {cursor k s : Nat} {front back es : List Entry}

theorem lowest_append_list {cursor : Nat} (front back : List MdRecord) :
    lowest cursor (front ++ back) = lowest (lowest cursor front) back := by
  induction front generalizing cursor with
  | nil => rfl
  | cons r front ih => exact ih

theorem claimedEnd_append_list {k : Nat} (front back : List MdRecord) :
    claimedEnd k (front ++ back) = claimedEnd (claimedEnd k front) back := by
  induction front generalizing k with
  | nil => rfl
  | cons r front ih => exact ih

theorem stacked_append {front back : List MdRecord} :
    Stacked cursor (front ++ back) ↔ Stacked cursor front ∧ Stacked (lowest cursor front) back := by
  induction front generalizing cursor with
  | nil => exact (and_iff_right trivial).symm
  | cons r front ih =>
    rw [List.cons_append, Stacked, Stacked, ih, lowest]
    tauto

/-- A tombstone leaves the places and the data of the records. -/
theorem lowest_killFirst (k : Nat) (es : List Entry) :
    lowest cursor (records (Item.killFirst k es)) = lowest cursor (records es) := by
  rw [records_killFirst]
  cases hfind : (records es).find? (liveFor k) with
  | none => rw [updateFirst_of_find_none hfind]
  | some r =>
    obtain ⟨front, back, hsplit, hupdate⟩ := updateFirst_of_find (f := MdRecord.kill) hfind
    rw [hupdate, hsplit]
    exact lowest_replace rfl

theorem claimedEnd_killFirst (k : Nat) (es : List Entry) :
    claimedEnd 0 (records (Item.killFirst k es)) = claimedEnd 0 (records es) := by
  rw [records_killFirst, claimedEnd_updateFirst (f := MdRecord.kill) fun _ => rfl]

/-- A tombstone hits the front or the back of a sector. -/
theorem killFirst_append (k : Nat) (front back : List Entry) :
    Item.killFirst k (front ++ back) = Item.killFirst k front ++ back ∨
      Item.killFirst k (front ++ back) = front ++ Item.killFirst k back := by
  induction front with
  | nil => exact .inr rfl
  | cons e front ih =>
    rw [List.cons_append, Item.killFirst, Item.killFirst]
    split
    · exact .inl rfl
    · exact ih.imp (congrArg (e :: ·)) (congrArg (e :: ·))

end Records

section Walk

variable {S c n s k : Nat} {st : Shelves Nat Nat Entry} {bad : Nat → Prop} {w : World} {md : MdWalk}

/-- The walk goes on after an entry has been killed. -/
theorem GcWalk.retire (h : GcWalk S n c st bad md) (s k : Nat) : GcWalk S n c (st.retire s k) bad md := by
  refine ⟨h.data, h.good, ?_⟩
  obtain ⟨front, back, hitems, hcursor, hclaimed, hlt, hseen⟩ := h.split
  change ∃ _ _, Function.update st.items s (Item.killFirst k (st.items s)) md.sector = _ ∧ _
  rw [Function.update_apply]
  split
  · next heq =>
    subst heq
    rw [hitems]
    rcases killFirst_append k front back with heq | heq
    · refine ⟨_, _, heq, ?_, ?_, hlt, fun hnone e he => ?_⟩
      · rw [lowest_killFirst, hcursor]
      · rw [claimedEnd_killFirst, hclaimed]
      · rcases Item.mem_killFirst he with hold | ⟨e', -, -, rfl⟩
        · exact hseen hnone e hold
        · rfl
    · exact ⟨front, _, heq, hcursor, hclaimed, hlt, hseen⟩
  · exact ⟨front, back, hitems, hcursor, hclaimed, hlt, hseen⟩

/-- A walk meets what is added to its sector at the end. -/
theorem GcWalk.add (h : GcWalk S n c st bad md) (s : Nat) (e : Entry) :
    GcWalk S n c { st with items := Function.update st.items s (st.items s ++ [e]) } bad md := by
  refine ⟨h.data, h.good, ?_⟩
  obtain ⟨front, back, hitems, hcursor, hclaimed, hlt, hseen⟩ := h.split
  change ∃ _ _, Function.update st.items s (st.items s ++ [e]) md.sector = _ ∧ _
  rw [Function.update_apply]
  split
  · next heq =>
    subst heq
    exact ⟨front, back ++ [e], by rw [hitems, List.append_assoc], hcursor, hclaimed, hlt, hseen⟩
  · exact ⟨front, back, hitems, hcursor, hclaimed, hlt, hseen⟩

/-- The walk of the collector stands in front of the rest of the records. -/
theorem GcWalk.before (h : GcWalk S n c st bad md) (hf : Filed S c n md.sector (st.items md.sector) w)
    (hactive : md.active = true) : ∃ front back, st.items md.sector = front ++ back ∧
      md.Before S md.sector (records (st.items md.sector)) (records back) ∧
      (md.liveSeen = false → ∀ e ∈ front, e.md.live = false) ∧
      md.cursor = lowest (S - sectorFooterSize) (records front) ∧
      md.claimedDataEnd = claimedEnd 0 (records front) := by
  obtain ⟨front, back, hitems, hcursor, hclaimed, hlt, hseen⟩ := h.split
  refine ⟨front, back, hitems, ?_, hseen, hcursor, hclaimed⟩
  have hrecords : records (st.items md.sector) = records front ++ records back := by
    rw [hitems, records, List.map_append]
  have hstacked := hf.recorded.stacked
  rw [hrecords] at hstacked ⊢
  exact {
    sector := rfl
    mem := fun r hr => List.mem_append_right _ hr
    stacked := hcursor ▸ (stacked_append.mp hstacked).2
    lowest := by rw [hcursor, lowest_append_list]
    claimed := by rw [hclaimed, claimedEnd_append_list]
    active := fun _ => hactive
    room := fun _ => hlt
    cursor_le := by
      rw [hcursor]
      exact (stacked_append.mp hstacked).1.lowest_le }

end Walk

/-! ## What the collector, the allocator and the handles keep in RAM -/

/-- The two worlds agree on what the collector, the allocator and the handles keep in RAM. -/
structure SameWork (v w : World) : Prop where
  files : w.files = v.files
  openFiles : w.fs.openFiles = v.fs.openFiles
  gcMd : w.fs.gcMd = v.fs.gcMd
  gcCursor : w.fs.gcCursor = v.fs.gcCursor
  reserve : w.fs.compactionReserve = v.fs.compactionReserve
  candidates : w.fs.compactionCandidates = v.fs.compactionCandidates
  scratchSize : w.fs.scratchSize = v.fs.scratchSize

section SameWork

variable {v w : World}

theorem SameWork.refl : SameWork v v := ⟨rfl, rfl, rfl, rfl, rfl, rfl, rfl⟩

theorem SameWork.trans {u : World} (h : SameWork u v) (h' : SameWork v w) : SameWork u w where
  files := h'.files.trans h.files
  openFiles := h'.openFiles.trans h.openFiles
  gcMd := h'.gcMd.trans h.gcMd
  gcCursor := h'.gcCursor.trans h.gcCursor
  reserve := h'.reserve.trans h.reserve
  candidates := h'.candidates.trans h.candidates
  scratchSize := h'.scratchSize.trans h.scratchSize

instance : CacheInv (SameWork v) where
  ofRead h := { h with }
  ofCache h := { h with }

instance (act : Act) : Keeps (SameWork v) (note act) := ⟨fun _ h => { h with }⟩

instance : NarrowInv (SameWork v) where
  narrow h := { h with }

instance (off : Nat) (bs : List Byte) : Keeps (SameWork v) (backendProgram off bs) := by
  constructor
  intro w h
  simp only [backendProgram]
  split <;> exact { h with }

instance (off len : Nat) : Keeps (SameWork v) (backendErase off len) := by
  constructor
  intro w h
  simp only [backendErase]
  split <;> exact { h with }

instance (granule fuel pos : Nat) (src : List Byte) : Keeps (SameWork v) (programChunks granule fuel pos src) := by
  induction fuel generalizing pos src with
  | zero => unfold programChunks; infer_instance
  | succ fuel ih => unfold programChunks; infer_instance

instance (off : Nat) (bs : List Byte) : Keeps (SameWork v) (programAligned off bs) := by
  unfold programAligned; infer_instance

/-- A change of what else the file system holds. -/
theorem keeps_dataFs {f : Fs → Fs} (h : ∀ fs, dataFs (f fs) = dataFs fs) : Keeps (SameWork v) (modifyFs f) := by
  refine ⟨fun w hw => ⟨hw.files, ?_, ?_, ?_, ?_, ?_, ?_⟩⟩
  · exact (dataFs_view (h w.fs) Fs.openFiles fun _ => rfl).trans hw.openFiles
  · exact (dataFs_view (h w.fs) Fs.gcMd fun _ => rfl).trans hw.gcMd
  · exact (dataFs_view (h w.fs) Fs.gcCursor fun _ => rfl).trans hw.gcCursor
  · exact (dataFs_view (h w.fs) Fs.compactionReserve fun _ => rfl).trans hw.reserve
  · exact (dataFs_view (h w.fs) Fs.compactionCandidates fun _ => rfl).trans hw.candidates
  · exact (dataFs_view (h w.fs) Fs.scratchSize fun _ => rfl).trans hw.scratchSize

instance (sector : Nat) : Keeps (SameWork v) (markSectorFull sector) := by
  unfold markSectorFull; infer_instance

instance (sector : Nat) : Keeps (SameWork v) (tombstoneSector sector) := by
  unfold tombstoneSector; infer_instance

instance (sector minFree slot : Nat) (normal : Bool) :
    Keeps (SameWork v) (findSectorFreeWindow sector minFree slot normal) :=
  keeps_findWindow inferInstance minFree slot normal

instance (sector slot : Nat) (d : Bool) (fuel : Nat) (reader : SectorReader) (walk : MdWalk) :
    Keeps (SameWork v) (tombstoneMetadataLoop sector slot d fuel reader walk) := by
  have hnote : ∀ size, Keeps (SameWork v) (modifyFs (fsinfoNoteCommittedDelete size)) :=
    fun size => keeps_dataFs fun fs => dataFs_note size fs
  induction fuel generalizing reader walk with
  | zero => unfold tombstoneMetadataLoop; infer_instance
  | succ fuel ih => unfold tombstoneMetadataLoop; infer_instance

instance (sector slot : Nat) (d : Bool) : Keeps (SameWork v) (tombstoneMetadataForSlot sector slot d) := by
  unfold tombstoneMetadataForSlot; infer_instance

instance : Keeps (SameWork v) claimSectorSerial := by
  have hserial (next : Nat) : Keeps (SameWork v) (modifyFs fun fs => { fs with nextSectorSerial := next }) :=
    keeps_dataFs fun _ => rfl
  unfold claimSectorSerial
  exact Keeps.bind (k := fun _ => Keeps.bind (j := hserial _))

instance : Keeps (SameWork v) rotateIndexBegin := by
  have hrotated : ∀ s, Keeps (SameWork v) (modifyFs (rotatedFs s)) := fun _ => ⟨fun _ h => { h with }⟩
  unfold rotateIndexBegin
  infer_instance

instance : Keeps (SameWork v) rotateIndexCommit := by
  unfold rotateIndexCommit programIndexHeader; infer_instance

instance (slot head : Nat) : Keeps (SameWork v) (appendIndexAtEnd slot head) := by
  have hnext : Keeps (SameWork v) (modifyFs fun fs => { fs with nextIndexOffset := fs.nextIndexOffset + 4 }) :=
    ⟨fun _ h => { h with }⟩
  unfold appendIndexAtEnd programIndexRecordAt
  infer_instance

instance (pending : Bool) (slot head : Nat) :
    Keeps (SameWork v) (indexRecordWriterAppend pending slot head) := by
  unfold indexRecordWriterAppend indexRecordWriterRoom; infer_instance

variable [Opts]

instance (sector : Nat) (used : Bool) : Keeps (SameWork v) (modifyFs (allocMapMark sector used)) := by
  refine keeps_dataFs fun fs => ?_
  rw [allocMapMark]
  split
  · split <;> rfl
  · rfl

instance (sector : Nat) : Keeps (SameWork v) (allocMapMarkUsed sector) := by
  unfold allocMapMarkUsed; infer_instance

instance (sector : Nat) : Keeps (SameWork v) (allocMapMarkUnknown sector) := by
  unfold allocMapMarkUnknown; infer_instance

instance (first count : Nat) : Keeps (SameWork v) (allocMapMarkRangeUnknown first count) := by
  induction count generalizing first with
  | zero => unfold allocMapMarkRangeUnknown; infer_instance
  | succ count ih => unfold allocMapMarkRangeUnknown; infer_instance

instance (sector : Nat) : Keeps (SameWork v) (markSectorUsed sector) := by
  unfold markSectorUsed; infer_instance

instance (sector slot : Nat) (type : Byte) (dataOff recordOff dataLen spanLen sizeOrOffset next : Nat)
    (footer live : Bool) : Keeps (SameWork v) (programExtentMetadata sector slot type dataOff recordOff footer
      dataLen spanLen sizeOrOffset next live) := by
  unfold programExtentMetadata; infer_instance

instance (reader : IndexRecordReader) (sourceEnd fuel off : Nat) (pending : Bool) :
    Keeps (SameWork v) (compactCopyLoop sourceEnd fuel reader off pending) := by
  induction fuel generalizing reader off pending with
  | zero => unfold compactCopyLoop; infer_instance
  | succ fuel ih => unfold compactCopyLoop; infer_instance

instance (source : Nat) : Keeps (SameWork v) (indexCompactOldestFinish source) := by
  have hdrop : Keeps (SameWork v) (modifyFs fun fs => { fs with
      oldestIndexSector := logicalIndexSector fs 1, indexSequenceCount := fs.indexSequenceCount - 1 }) :=
    ⟨fun _ h => { h with }⟩
  unfold indexCompactOldestFinish tombstoneIndexSector
  infer_instance

instance : Keeps (SameWork v) indexCompactOldestCopy := by
  unfold indexCompactOldestCopy; infer_instance

instance : Keeps (SameWork v) rotateIndex := by
  unfold rotateIndex; infer_instance

instance (slot head : Nat) : Keeps (SameWork v) (appendIndexRecord slot head) := by
  unfold appendIndexRecord appendIndexRoom; infer_instance

instance (sector : Nat) : Keeps (SameWork v) (eraseDataSector sector) := by
  unfold eraseDataSector; infer_instance

instance (chunk fuel src dst remaining : Nat) :
    Keeps (SameWork v) (copyRootDataLoop chunk fuel src dst remaining) := by
  induction fuel generalizing src dst remaining with
  | zero => unfold copyRootDataLoop; infer_instance
  | succ fuel ih => unfold copyRootDataLoop; infer_instance

instance : Keeps (SameWork v) (modifyFs fsinfoInvalidateCommitted) := keeps_dataFs fun _ => rfl

instance : Keeps (SameWork v) fsinfoRefresh := by
  have hcounts : ∀ files bytes, Keeps (SameWork v) (modifyFs fun fs =>
      { fs with committedFileCount := files, committedDataBytes := bytes
                committedFilesValid := true, committedBytesValid := true }) :=
    fun _ _ => keeps_dataFs fun _ => rfl
  unfold fsinfoRefresh
  refine Keeps.bind (k := fun counts => ?_)
  rcases counts with e | ⟨files, bytes⟩
  · infer_instance
  · exact hcounts files bytes

instance (refresh refreshIfNeeded estimate : Bool) :
    Keeps (SameWork v) (fsinfo refresh refreshIfNeeded estimate) := by
  unfold fsinfo; infer_instance

end SameWork

/-! ## Changes of a store -/

section Changes

variable [Opts] {S c n s lo hi : Nat} {st st' : Shelves Nat Nat Entry} {bad bad' : Nat → Prop} {w w' : World}

theorem Shelved.plan (h : Shelved S c n st bad w) : w.dev.plan = [] := by
  obtain ⟨logs, hlogs, -⟩ := h.index
  exact hlogs.works.plan

theorem Shelved.place (h : Shelved S c n st bad w) (hs : InData n c s) : SectorAt S c n s w := by
  by_cases hbad : bad s
  · exact (h.condemned s hs hbad).2.place
  · exact (h.filed s hs hbad).recorded.place

omit [Opts] in
theorem inData_iff {fs : Fs} (hn : fs.indexSectors = n) (hc : fs.sectorCount = c) :
    validDataSector fs s = true ↔ InData n c s := by
  rw [validDataSector, Bool.and_eq_true, decide_eq_true_eq, decide_eq_true_eq, hn, hc]
  rfl

theorem Shelved.valid (h : Shelved S c n st bad w) : validDataSector w.fs s = true ↔ InData n c s :=
  inData_iff h.indexSectors h.sectorCount

/-- The index is where it was. -/
theorem Shelved.index_area (h : Shelved S c n st bad w) (harea : SameArea (n * S) w w')
    (hhead : st'.head = st.head) : ∃ logs, RunState w' logs ∧ ∀ k, st'.head k = headOf (logMap logs.flatten k) := by
  obtain ⟨logs, hlogs, hheads⟩ := h.index
  rw [← h.indexSectors, ← h.sectorSize] at harea
  exact ⟨logs, hlogs.ofArea harea, fun k => hhead ▸ hheads k⟩

/-- A change of what the sectors and the index do not see. -/
theorem Shelved.ofSame (h : Shelved S c n st bad w) (hsame : ∀ limit, SameArea limit w w') :
    Shelved S c n st bad w' := by
  have hfs := (hsame 0).index
  have ht : ∀ s, Touches S s 0 0 w w' := fun s => {
    sectorSize := indexFs_view hfs Fs.sectorSize fun _ => rfl
    sectorCount := indexFs_view hfs Fs.sectorCount fun _ => rfl
    indexSectors := indexFs_view hfs Fs.indexSectors fun _ => rfl
    scratchSize := indexFs_view hfs Fs.scratchSize fun _ => rfl
    granule := (hsame 0).granule
    plan := by rw [(hsame 0).plan h.plan, h.plan]
    size := (hsame 0).size
    bytes := fun a _ _ => (hsame (s * S + a + 1)).area _ (Nat.lt_succ_self _) }
  refine ⟨h.small, (hsame 0).granule ▸ h.granule, ?_, ?_, ?_, h.index_area (hsame _) rfl,
    fun s hs hgood => (h.filed s hs hgood).elsewhere (ht s),
    fun s hs hbad => ?_, h.outside⟩
  · exact (ht 0).indexSectors.trans h.indexSectors
  · exact (ht 0).sectorSize.trans h.sectorSize
  · exact (ht 0).sectorCount.trans h.sectorCount
  · obtain ⟨hnil, hcond⟩ := h.condemned s hs hbad
    exact ⟨hnil, hcond.elsewhere (ht s)⟩

theorem Stored.ofSame (h : Stored S c n st bad w) (hsame : ∀ limit, SameArea limit w w')
    (hwalk : w'.fs.gcMd.active = true → GcWalk S n c st bad w'.fs.gcMd) : Stored S c n st bad w' :=
  ⟨h.toShelved.ofSame hsame, hwalk⟩

/-- A change of the state of the collector and the allocator. -/
theorem Stored.setFs (h : Stored S c n st bad w) {fs : Fs} (hfs : indexFs fs = indexFs w.fs)
    (hwalk : fs.gcMd.active = true → GcWalk S n c st bad fs.gcMd) : Stored S c n st bad { w with fs := fs } :=
  h.ofSame (fun _ => .ofFs hfs) hwalk

omit [Opts] in
/-- The state of the collector is the one before. -/
theorem Inside.walk_eq (hin : Inside S s lo hi w w') : w'.fs.gcMd = w.fs.gcMd := hin.view Fs.gcMd fun _ => rfl

/-- A program that changes no byte. -/
theorem Stored.quiet (h : Stored S c n st bad w) (hin : Inside S s lo lo w w') : Stored S c n st bad w' := by
  refine h.ofSame (fun limit => ?_) fun hactive => hin.walk_eq ▸ h.walk (hin.walk_eq ▸ hactive)
  exact ⟨hin.plan, hin.size, hin.granule, fun a _ => hin.bytes a (Nat.lt_or_ge _ _),
    dataFs_view hin.fs indexFs fun _ => rfl⟩

/-- What a program that changes no byte leaves behind. -/
theorem Stored.keeps {α : Type} {x : M α} (h : Stored S c n st bad w) [hin : Keeps (Inside S 0 0 0 w) x]
    [hwork : Keeps (SameWork w) x] : Stored S c n st bad (x.run w).2 ∧ SameWork w (x.run w).2 :=
  ⟨h.quiet (hin.keeps w .refl), hwork.keeps w .refl⟩

/-- A change of one sector: what it holds afterwards. -/
theorem Shelved.sector {es : List Entry} (h : Shelved S c n st bad w) (hin : Inside S s lo hi w w') (hhi : hi ≤ S)
    (hs : InData n c s) (hbad : ∀ t, t ≠ s → (bad' t ↔ bad t)) (hfiled : ¬ bad' s → Filed S c n s es w')
    (hcond : bad' s → es = [] ∧ Condemned S c n s w') :
    Shelved S c n { st with items := Function.update st.items s es } bad' w' := by
  have hitems : ∀ t, Function.update st.items s es t = if t = s then es else st.items t :=
    fun t => Function.update_apply ..
  refine ⟨h.small, hin.granule ▸ h.granule, ?_, ?_, ?_, h.index_area (hin.area hs.1) rfl,
    fun t ht hgood => ?_, fun t ht hbad' => ?_,
    fun t ht => ?_⟩
  · exact (hin.view Fs.indexSectors fun _ => rfl).trans h.indexSectors
  · exact (hin.view Fs.sectorSize fun _ => rfl).trans h.sectorSize
  · exact (hin.view Fs.sectorCount fun _ => rfl).trans h.sectorCount
  · change Filed S c n t (Function.update st.items s es t) w'
    rw [hitems]
    split
    · next heq => exact heq ▸ hfiled (heq ▸ hgood)
    · next hne =>
      exact (h.filed t ht fun hb => hgood ((hbad t hne).mpr hb)).elsewhere (hin.other hhi h.plan hne)
  · change Function.update st.items s es t = [] ∧ _
    rw [hitems]
    split
    · next heq => exact heq ▸ hcond (heq ▸ hbad')
    · next hne =>
      obtain ⟨hnil, hcond⟩ := h.condemned t ht ((hbad t hne).mp hbad')
      exact ⟨hnil, hcond.elsewhere (hin.other hhi h.plan hne)⟩
  · change Function.update st.items s es t = []
    rw [hitems, if_neg fun heq : t = s => ht (heq ▸ hs)]
    exact h.outside t ht

omit [Opts] in
theorem shelves_update_self (st : Shelves Nat Nat Entry) (s : Nat) :
    { st with items := Function.update st.items s (st.items s) } = st := by
  rw [Function.update_eq_self]

/-- A search for a window leaves the store alone, and finds a window of a good sector. -/
theorem Stored.find {minFree slot : Nat} {normal : Bool} {res : Except Status FreeWindow}
    (h : Stored S c n st bad w) (hrun : (findSectorFreeWindow s minFree slot normal).run w = (res, w')) :
    Stored S c n st bad w' ∧ SameWork w w' ∧ Inside S s (S - sectorFooterSize) S w w' ∧
      ∀ win, res = .ok win → 0 < minFree →
        InData n c s ∧ ¬ bad s ∧ Vacant S (st.items s) slot minFree win := by
  have hwork : SameWork w w' := by
    have hkept := (inferInstance : Keeps (SameWork w) (findSectorFreeWindow s minFree slot normal)).keeps w .refl
    rw [hrun] at hkept
    exact hkept
  by_cases hs : InData n c s
  · by_cases hbad : bad s
    · obtain ⟨hnil, hcond⟩ := h.condemned s hs hbad
      rw [hcond.find] at hrun
      cases hrun
      exact ⟨h, hwork, .refl, fun win hok => by cases hok⟩
    · have hf := h.filed s hs hbad
      obtain ⟨hin, hf'⟩ := hf.find hrun
      refine ⟨?_, hwork, hin, fun win hok hmin => ⟨hs, hbad, ?_⟩⟩
      · have hshelved := h.sector hin le_rfl hs (fun _ _ => Iff.rfl) (fun _ => hf') fun hb => absurd hb hbad
        rw [shelves_update_self] at hshelved
        exact ⟨hshelved, fun hactive => hin.walk_eq ▸ h.walk (hin.walk_eq ▸ hactive)⟩
      · subst hok
        exact hf.window_ok h.small hmin hrun
  · have hinvalid : validDataSector w.fs s = false := by
      rw [← Bool.not_eq_true, h.valid]
      exact hs
    rw [findSectorFreeWindow, bind_of_ok (run_getFs w), if_pos hinvalid] at hrun
    cases hrun
    exact ⟨h, hwork, .refl, fun win hok => by cases hok⟩

/-- A tombstone kills the first live entry of the slot. -/
theorem Shelved.tombstone (h : Shelved S c n st bad w) (hs : InData n c s) (hgood : ¬ bad s) (slot : Nat) (d : Bool) :
    ∃ accounted w', (tombstoneMetadataForSlot s slot d).run w = (.ok accounted, w') ∧
      Shelved S c n (st.retire s slot) bad w' ∧ SameWork w w' := by
  obtain ⟨accounted, w', hrun, hin, hf⟩ := (h.filed s hs hgood).tombstone slot d
  have hwork := (inferInstance : Keeps (SameWork w) (tombstoneMetadataForSlot s slot d)).keeps w .refl
  rw [hrun] at hwork
  refine ⟨accounted, w', hrun, ?_, hwork⟩
  exact h.sector hin le_rfl hs (fun _ _ => Iff.rfl) (fun _ => hf) fun hb => absurd hb hgood

theorem Stored.tombstone (h : Stored S c n st bad w) (hs : InData n c s) (hgood : ¬ bad s) (slot : Nat) (d : Bool) :
    ∃ accounted w', (tombstoneMetadataForSlot s slot d).run w = (.ok accounted, w') ∧
      Stored S c n (st.retire s slot) bad w' ∧ SameWork w w' := by
  obtain ⟨accounted, w', hrun, hshelved, hwork⟩ := h.toShelved.tombstone hs hgood slot d
  refine ⟨accounted, w', hrun, ⟨hshelved, fun hactive => ?_⟩, hwork⟩
  rw [hwork.gcMd] at hactive ⊢
  exact (h.walk hactive).retire s slot

/-- A lookup of a record by its slot. -/
theorem Shelved.readMd (h : Shelved S c n st bad w) (hs : InData n c s) (hgood : ¬ bad s) (slot : Nat) :
    (readMdForSlot s slot).run w =
      (((st.items s).find? (Item.liveFor slot)).elim (.error .corrupt) fun e => .ok e.md, w) :=
  (h.filed s hs hgood).readMd slot

/-- Where a current root is. -/
theorem Shelved.head_data {k : Nat} (h : Shelved S c n st bad w) (ht : st.Tidy) (hk : st.head k = some s) :
    InData n c s ∧ ¬ bad s ∧ NameSlot k := by
  obtain ⟨e, he, hfor⟩ := ht.held k s hk
  have hs : InData n c s := by
    by_contra hs
    rw [h.outside s hs] at he
    cases he
  have hgood : ¬ bad s := by
    intro hbad
    rw [(h.condemned s hs hbad).1] at he
    cases he
  refine ⟨hs, hgood, ?_⟩
  obtain rfl : e.md.slot = k := (Item.liveFor_iff.mp hfor).2
  exact ((h.filed s hs hgood).whole e he).slot

/-- The index finds the head of a slot. -/
theorem Shelved.headForSlot (h : Shelved S c n st bad w) {k : Nat} (hk : k ≠ 0) :
    (indexHeadForSlot k).run w = (.ok (st.head k), w) := by
  obtain ⟨logs, hlogs, hheads⟩ := h.index
  rw [indexHeadForSlot_run hlogs.log hlogs.placed hlogs.cache hk, hheads]

/-- The record is added to the index, or the index has no room for it. -/
theorem Stored.appendIndex (h : Stored S c n st bad w) {k p : Nat} (hk : NameSlot k) (hp : p = 0 ∨ InData n c p)
    (hroom : tableRoom w ⟨k, p⟩) : ∃ w', SameWork w w' ∧ (∀ s, InData n c s → Touches S s 0 0 w w') ∧
      ((appendIndexRecord k p).run w = (.ok (), w') ∧
          Stored S c n { st with head := Function.update st.head k (headOf p) } bad w' ∨
        (appendIndexRecord k p).run w = (.error .noSpace, w') ∧ Stored S c n st bad w') := by
  obtain ⟨logs, hlogs, hheads⟩ := h.index
  have hwritable : Writable w.fs ⟨k, p⟩ := by
    refine ⟨hk.1, hk.2, hp.imp_right fun hdata => ?_⟩
    rw [h.indexSectors, h.sectorCount]
    exact hdata
  obtain ⟨w', logs', hlogs', hsetup, hcases⟩ := hlogs.append_run hwritable hroom
  have hwork : SameWork w w' := by
    have hkept := (inferInstance : Keeps (SameWork w) (appendIndexRecord k p)).keeps w .refl
    rcases hcases with ⟨hrun, -⟩ | ⟨hrun, -⟩ <;> rwa [hrun] at hkept
  have ht : ∀ s, InData n c s → Touches S s 0 0 w w' := fun s hs => {
    sectorSize := hsetup.sectorSize
    sectorCount := hsetup.sectorCount
    indexSectors := hsetup.indexSectors
    scratchSize := hwork.scratchSize
    granule := hsetup.granule
    plan := by rw [hsetup.plan', hsetup.plan]
    size := hsetup.size
    bytes := fun a _ _ => hsetup.data _ (by rw [h.indexSectors, h.sectorSize]; exact hs.le a) }
  have hstored : ∀ head, (∀ k, head k = headOf (logMap logs'.flatten k)) →
      Stored S c n { st with head := head } bad w' := by
    intro head hhead
    refine ⟨⟨h.small, hsetup.granule ▸ h.granule, hsetup.indexSectors.trans h.indexSectors,
      hsetup.sectorSize.trans h.sectorSize,
      hsetup.sectorCount.trans h.sectorCount, ⟨logs', hlogs', hhead⟩, fun s hs hgood =>
        (h.filed s hs hgood).elsewhere (ht s hs), fun s hs hbad => ?_, h.outside⟩, fun hactive => ?_⟩
    · obtain ⟨hnil, hcond⟩ := h.condemned s hs hbad
      exact ⟨hnil, hcond.elsewhere (ht s hs)⟩
    · rw [hwork.gcMd] at hactive ⊢
      exact ⟨(h.walk hactive).data, (h.walk hactive).good, (h.walk hactive).split⟩
  refine ⟨w', hwork, ht, hcases.imp (fun hok => ⟨hok.1, hstored _ fun j => ?_⟩) fun hfull => ⟨hfull.1, ?_⟩⟩
  · rw [hok.2, Function.update_apply, Function.update_apply, hheads]
    split <;> rfl
  · refine hstored st.head fun j => ?_
    rw [hfull.2, hheads]

end Changes

end Fastffs
