import Fastffs.Ownership

/-!
# What the allocator and the collector leave of the handles

The allocator and the collector move reservations, the compaction reserve, the allocation
map and the cursors, and they write to the flash.  Of a handle they change the reservation
only, and the window of the handle that allocates.  `HandleInv I` says that `I` speaks about
what they leave alone.  `allocNextSector_gives` is the rule for an allocation: what holds of
every window that it can take holds of the handle afterwards.
-/

namespace Fastffs

open Prog

/-- A handle without its reservation. -/
def File.unreserved (file : File) : File := { file with reserveFirst := 0, reserveCount := 0 }

/-- The handles of the two worlds differ in their reservations at most, and the geometry, the
average and the trace are the same. -/
structure SameHandles (w w' : World) : Prop where
  files : ∀ k, (w'.files k).unreserved = (w.files k).unreserved
  openFiles : w'.fs.openFiles = w.fs.openFiles
  indexSectors : w'.fs.indexSectors = w.fs.indexSectors
  sectorSize : w'.fs.sectorSize = w.fs.sectorSize
  sectorCount : w'.fs.sectorCount = w.fs.sectorCount
  average : w'.fs.avgSectorsPerFileQ8 = w.fs.avgSectorsPerFileQ8
  chipSize : w'.dev.size = w.dev.size
  granule : w'.dev.programGranule = w.dev.programGranule
  trace : w'.trace = w.trace

/-- An act of the allocator or the collector on a sector. -/
def Act.onSector : Act → Bool
  | .alloc _ _ | .reserve _ | .copyTo _ | .erase _ => true
  | .flush _ _ | .narrow _ | .sample _ => false

/-- An invariant of what the allocator and the collector leave alone. -/
class HandleInv (I : World → Prop) : Prop where
  indexSectors_pos : ∀ {w}, I w → 0 < w.fs.indexSectors
  ofSame : ∀ {w w'}, SameHandles w w' → I w → I w'
  noteSector : ∀ {w act}, act.onSector = true → I w → I { w with trace := ⟨act, w.fs, w.files⟩ :: w.trace }

instance {I : World → Prop} [HandleInv I] : FrameInv I where
  indexSectors_pos := HandleInv.indexSectors_pos
  ofView {w w'} h hw := by
    simp only [ramView, RamView.mk.injEq] at h
    obtain ⟨hfiles, hopen, -, hidx, hsize, hcount, -, -, havg, hchip, hgranule, htrace⟩ := h
    exact HandleInv.ofSame ⟨fun k => by rw [hfiles], hopen.symm, hidx.symm, hsize.symm, hcount.symm,
      havg.symm, hchip.symm, hgranule.symm, htrace.symm⟩ hw
  noteErase _ hw := HandleInv.noteSector rfl hw

variable {I : World → Prop} [HandleInv I]

/-- A change of the file system that the invariant does not see. -/
theorem keeps_bookkeeping {f : Fs → Fs} (hopen : ∀ fs, (f fs).openFiles = fs.openFiles)
    (hidx : ∀ fs, (f fs).indexSectors = fs.indexSectors) (hsize : ∀ fs, (f fs).sectorSize = fs.sectorSize)
    (hcount : ∀ fs, (f fs).sectorCount = fs.sectorCount)
    (havg : ∀ fs, (f fs).avgSectorsPerFileQ8 = fs.avgSectorsPerFileQ8) : Keeps I (modifyFs f) :=
  ⟨fun w hw => HandleInv.ofSame (w := w) ⟨fun _ => rfl, hopen _, hidx _, hsize _, hcount _, havg _, rfl, rfl,
    rfl⟩ hw⟩

/-- A change of a handle that moves its reservation only. -/
theorem keeps_reservation {h : Nat} {g : File → File} (hg : ∀ f, (g f).unreserved = f.unreserved) :
    Keeps I (modifyFile h g) := by
  constructor
  intro w hw
  refine HandleInv.ofSame (w := w) ⟨fun k => ?_, rfl, rfl, rfl, rfl, rfl, rfl, rfl, rfl⟩ hw
  change (if k = h then g (w.files k) else w.files k).unreserved = _
  split
  · exact hg _
  · rfl

theorem keeps_noteSector {act : Act} (h : act.onSector = true) : Keeps I (note act) :=
  ⟨fun _ hw => HandleInv.noteSector h hw⟩

instance (h s : Nat) : Keeps I (note (.alloc h s)) := keeps_noteSector rfl
instance (s : Nat) : Keeps I (note (.reserve s)) := keeps_noteSector rfl
instance (s : Nat) : Keeps I (note (.copyTo s)) := keeps_noteSector rfl
instance (s : Nat) : Keeps I (note (.erase s)) := keeps_noteSector rfl

variable [Opts]

/-! ## The allocation map and the reserve -/

instance (s : Nat) (used : Bool) : Keeps I (modifyFs (allocMapMark s used)) := by
  have hmark : ∀ fs, ∃ m, allocMapMark s used fs = { fs with allocMap := m } := by
    intro fs
    unfold allocMapMark
    split
    · split
      · exact ⟨fs.allocMap, rfl⟩
      · exact ⟨_, rfl⟩
    · exact ⟨fs.allocMap, rfl⟩
  have hview : ∀ {α : Type} (f : Fs → α), (∀ fs m, f { fs with allocMap := m } = f fs) →
      ∀ fs, f (allocMapMark s used fs) = f fs := by
    intro α f hf fs
    obtain ⟨m, hm⟩ := hmark fs
    rw [hm, hf]
  exact keeps_bookkeeping (hview _ fun _ _ => rfl) (hview _ fun _ _ => rfl) (hview _ fun _ _ => rfl)
    (hview _ fun _ _ => rfl) (hview _ fun _ _ => rfl)

instance (s : Nat) : Keeps I (allocMapMarkUsed s) := by
  unfold allocMapMarkUsed; infer_instance

instance (s : Nat) : Keeps I (allocMapMarkUnknown s) := by
  unfold allocMapMarkUnknown; infer_instance

instance (first count : Nat) : Keeps I (allocMapMarkRangeUnknown first count) := by
  induction count generalizing first with
  | zero => unfold allocMapMarkRangeUnknown; infer_instance
  | succ count ih => unfold allocMapMarkRangeUnknown; infer_instance

instance (s : Nat) : Keeps I (markSectorUsed s) := by
  unfold markSectorUsed; infer_instance

instance (s : Nat) : Keeps I (allocCompactionReserveRemove s) :=
  keeps_bookkeeping (fun _ => rfl) (fun _ => rfl) (fun _ => rfl) (fun _ => rfl) fun _ => rfl

/-- Moving the cursor of the allocator. -/
instance (f : Fs → Nat) : Keeps I (modifyFs fun fs => { fs with allocCursor := f fs }) :=
  keeps_bookkeeping (fun _ => rfl) (fun _ => rfl) (fun _ => rfl) (fun _ => rfl) fun _ => rfl

instance (s slot : Nat) (type : Nor.Byte) (dataOff recordOff : Nat) (footer : Bool)
    (dataLen spanLen size next : Nat) (live : Bool) :
    Keeps I (programExtentMetadata s slot type dataOff recordOff footer dataLen spanLen size next live) :=
  keeps_programExtentMetadata ..

/-! ## Compaction -/

section Collect

variable [∀ s minFree slot normal, Keeps I (findSectorFreeWindow s minFree slot normal)]

instance (slot dataLen : Nat) (list : List Nat) (best : Option (Nat × FreeWindow)) :
    Keeps I (compactionReserveLoop slot dataLen list best) := by
  induction list generalizing best with
  | nil => unfold compactionReserveLoop; infer_instance
  | cons t rest ih =>
    unfold compactionReserveLoop
    refine Keeps.bind (k := fun r => ?_)
    split <;> infer_instance

instance (source slot dataLen fuel s : Nat) (normal : Bool) :
    Keeps I (compactionWindowLoop source slot dataLen normal fuel s) := by
  induction fuel generalizing s with
  | zero => unfold compactionWindowLoop; infer_instance
  | succ fuel ih =>
    unfold compactionWindowLoop
    refine Keeps.bind (k := fun w => ?_)
    split
    · infer_instance
    · refine Keeps.bind (k := fun r => ?_)
      split
      · refine Keeps.bind (j := ?_)
        exact keeps_bookkeeping (fun _ => rfl) (fun _ => rfl) (fun _ => rfl) (fun _ => rfl) fun _ => rfl
      · infer_instance
      · infer_instance

instance (source slot dataLen : Nat) (relaxed : Bool) :
    Keeps I (findCompactionRootWindow source slot dataLen relaxed) := by
  unfold findCompactionRootWindow
  refine Keeps.bind (k := fun fs => Keeps.bind (k := fun found => ?_))
  split
  · infer_instance
  · refine Keeps.bind (k := fun fs => Keeps.bind (k := fun found => ?_))
    split
    · infer_instance
    · split
      · refine Keeps.bind (k := fun fs => Keeps.bind (k := fun found => ?_))
        split <;> infer_instance
      · infer_instance

instance (source slot dataLen : Nat) (relaxed : Bool) :
    Keeps I (allocFindCompactionRootWindow source slot dataLen relaxed) := by
  unfold allocFindCompactionRootWindow; infer_instance

instance (source : Nat) (r : MdRecord) (relaxed : Bool) : Keeps I (gcCopyRootRecord source r relaxed) := by
  unfold gcCopyRootRecord; infer_instance

omit [∀ s minFree slot normal, Keeps I (findSectorFreeWindow s minFree slot normal)] in
instance (sector copied fuel entry : Nat) (reader : SectorReader) (walk : MdWalk) :
    Keeps I (tombstoneCopiedLoop sector copied fuel reader walk entry) := by
  induction fuel generalizing reader walk entry with
  | zero => unfold tombstoneCopiedLoop; infer_instance
  | succ fuel ih => unfold tombstoneCopiedLoop; infer_instance

omit [∀ s minFree slot normal, Keeps I (findSectorFreeWindow s minFree slot normal)] in
instance (sector copied : Nat) : Keeps I (gcTombstoneCopiedRoots sector copied) := by
  unfold gcTombstoneCopiedRoots; infer_instance

instance (source fuel entry copied : Nat) (relaxed : Bool) (reader : SectorReader) (walk : MdWalk) :
    Keeps I (compactRootLoop source relaxed fuel reader walk entry copied) := by
  induction fuel generalizing reader walk entry copied with
  | zero => unfold compactRootLoop; infer_instance
  | succ fuel ih =>
    unfold compactRootLoop
    split
    · infer_instance
    · refine Keeps.bind (k := fun res => ?_)
      split
      · infer_instance
      · split
        · infer_instance
        · split
          · infer_instance
          · split
            · refine Keeps.bind (k := fun w => ?_)
              split
              · infer_instance
              · refine Keeps.bind (k := fun res' => ?_)
                split <;> infer_instance
            · infer_instance

omit [∀ s minFree slot normal, Keeps I (findSectorFreeWindow s minFree slot normal)] in
instance (s : Nat) : Keeps I (eraseDataSector s) := by
  unfold eraseDataSector; infer_instance

instance (source : Nat) (relaxed : Bool) : Keeps I (gcCompactRootOnlySector source relaxed) := by
  unfold gcCompactRootOnlySector compactErase
  refine Keeps.bind (k := fun fs => Keeps.bind (k := fun walk => Keeps.bind (k := fun a => ?_)))
  refine Keeps.bind (k := fun res => ?_)
  split <;> infer_instance

instance (relaxed : Bool) (cs : List CompactionCandidate) : Keeps I (compactCandidatesLoop relaxed cs) := by
  induction cs with
  | nil => unfold compactCandidatesLoop; infer_instance
  | cons c rest ih =>
    unfold compactCandidatesLoop
    split
    · infer_instance
    · refine Keeps.bind (k := fun allowed => ?_)
      split
      · refine Keeps.bind (k := fun res => ?_)
        split <;> infer_instance
      · infer_instance

instance (relaxed : Bool) : Keeps I (gcCompactUntilErased relaxed) := by
  unfold gcCompactUntilErased; infer_instance

/-! ## One step of the collector -/

section Step

omit [∀ s minFree slot normal, Keeps I (findSectorFreeWindow s minFree slot normal)]

instance (s : Nat) : Keeps I (gcTombstone s) := by
  unfold gcTombstone; infer_instance

instance (s immediateFree : Nat) : Keeps I (modifyFs (gcUpdateCompactionCandidate s immediateFree)) := by
  have hcand : ∀ fs, ∃ cs, gcUpdateCompactionCandidate s immediateFree fs =
    { fs with compactionCandidates := cs } := by
    intro fs
    unfold gcUpdateCompactionCandidate
    dsimp only
    split
    · exact ⟨_, rfl⟩
    · exact ⟨fs.compactionCandidates, rfl⟩
  have hview : ∀ {α : Type} (f : Fs → α), (∀ fs cs, f { fs with compactionCandidates := cs } = f fs) →
      ∀ fs, f (gcUpdateCompactionCandidate s immediateFree fs) = f fs := by
    intro α f hf fs
    obtain ⟨cs, hcs⟩ := hcand fs
    rw [hcs, hf]
  exact keeps_bookkeeping (hview _ fun _ _ => rfl) (hview _ fun _ _ => rfl) (hview _ fun _ _ => rfl)
    (hview _ fun _ _ => rfl) (hview _ fun _ _ => rfl)

instance (s : Nat) (result : MdWalkResult) (wanted : Bool) : Keeps I (gcImmediateFree s result wanted) := by
  unfold gcImmediateFree
  refine Keeps.bind (k := fun fs => ?_)
  dsimp only
  split
  · refine Keeps.bind (k := fun r => ?_)
    split <;> infer_instance
  · infer_instance

instance (s : Nat) (result : MdWalkResult) : Keeps I (gcFinishLive s result) := by
  unfold gcFinishLive; infer_instance

instance (s : Nat) (result : MdWalkResult) : Keeps I (gcFinish s result) := by
  unfold gcFinish; infer_instance

instance (reader : SectorReader) (s : Nat) : Keeps I (gcWalkSector reader s) := by
  unfold gcWalkSector
  refine Keeps.bind (k := fun _ => Keeps.bind (k := fun fs => Keeps.bind (k := fun res => ?_)))
  split
  · infer_instance
  · infer_instance
  · refine Keeps.bind (k := fun _ => Keeps.bind (k := fun _ => ?_))
    split
    · refine Keeps.bind (k := fun res => ?_)
      split <;> infer_instance
    · infer_instance

instance (s : Nat) (footer : SectorFooter) : Keeps I (gcFooterVerdict s footer) := by
  unfold gcFooterVerdict
  refine Keeps.bind (k := fun fs => ?_)
  split
  · refine Keeps.bind (k := fun r => ?_)
    split <;> infer_instance
  · infer_instance

instance (useMap : Bool) : Keeps I (gcStep useMap) := by
  unfold gcStep
  refine Keeps.bind (k := fun fs => ?_)
  split
  · infer_instance
  · refine Keeps.bind (k := fun _ => Keeps.bind (k := fun w => ?_))
    split
    · infer_instance
    · split
      · infer_instance
      · refine Keeps.bind (k := fun footer => Keeps.bind (k := fun verdict => ?_))
        split <;> infer_instance

instance (k : Nat) : Keeps I (gcStepLoop k) := by
  induction k with
  | zero => unfold gcStepLoop; infer_instance
  | succ k ih => unfold gcStepLoop; infer_instance

instance : Keeps I gcStepPublic := by
  unfold gcStepPublic; infer_instance

instance (k erased : Nat) : Keeps I (gc k erased) := by
  induction k generalizing erased with
  | zero => unfold gc; infer_instance
  | succ k ih => unfold gc; infer_instance

instance (useMap : Bool) (dataSectors fuel advanced : Nat) :
    Keeps I (gcPassLoop useMap dataSectors fuel advanced) := by
  induction fuel generalizing advanced with
  | zero => unfold gcPassLoop; infer_instance
  | succ fuel ih => unfold gcPassLoop; infer_instance

instance (useMap : Bool) : Keeps I (gcPass useMap) := by
  have hclear : Keeps I (modifyFs fun fs => { fs with compactionCandidates := noCandidates }) :=
    keeps_bookkeeping (fun _ => rfl) (fun _ => rfl) (fun _ => rfl) (fun _ => rfl) fun _ => rfl
  unfold gcPass; infer_instance

end Step

instance : Keeps I gcUntilErased := by
  unfold gcUntilErased
  refine Keeps.bind (k := fun fs => ?_)
  split
  · infer_instance
  · refine Keeps.bind (k := fun found => ?_)
    split
    · infer_instance
    · split
      · infer_instance
      · refine Keeps.bind (k := fun found => ?_)
        split <;> infer_instance

end Collect

/-! ## Reservations -/

section Alloc

variable {h : Nat}

instance : Keeps I (allocReleaseReservation h) := by
  have hclear : Keeps I (modifyFile h fun f => { f with reserveFirst := 0, reserveCount := 0 }) :=
    keeps_reservation fun _ => rfl
  unfold allocReleaseReservation; infer_instance

instance (hs : List Nat) (any : Bool) : Keeps I (halveLoop hs any) := by
  have hhalve : ∀ k n, Keeps I (modifyFile k fun f =>
      { f with reserveCount := n, reserveFirst := if n = 0 then 0 else f.reserveFirst }) :=
    fun _ _ => keeps_reservation fun _ => rfl
  induction hs generalizing any with
  | nil => unfold halveLoop; infer_instance
  | cons k rest ih => unfold halveLoop; infer_instance

instance : Keeps I halveReservations := by
  unfold halveReservations; infer_instance

instance (fuel next : Nat) : Keeps I (reserveAfterLoop h fuel next) := by
  have hgrow : ∀ next, Keeps I (modifyFile h fun f =>
      { f with reserveFirst := if f.reserveCount = 0 then next else f.reserveFirst
               reserveCount := f.reserveCount + 1 }) :=
    fun _ => keeps_reservation fun _ => rfl
  induction fuel generalizing next with
  | zero => unfold reserveAfterLoop; infer_instance
  | succ fuel ih => unfold reserveAfterLoop; infer_instance

instance (s : Nat) : Keeps I (reserveAfter h s) := by
  unfold reserveAfter; infer_instance

/-! ## The window of an allocation -/

/-- The invariant, with a property of a handle that its reservation does not matter for. -/
def With (I : World → Prop) (h : Nat) (F : File → Prop) (w : World) : Prop :=
  I w ∧ F (w.files h).unreserved

omit [Opts] in
instance {F : File → Prop} : HandleInv (With I h F) where
  indexSectors_pos hw := HandleInv.indexSectors_pos hw.1
  ofSame hsame hw := ⟨HandleInv.ofSame hsame hw.1, (hsame.files h).symm ▸ hw.2⟩
  noteSector hact hw := ⟨HandleInv.noteSector hact hw.1, hw.2⟩

/-- The handle after it has taken a window. -/
def File.setWindow (file : File) (dataOff recordOff : Nat) (needsFooter : Bool) : File :=
  { file with dataOffset := dataOff, currentWriteOffset := dataOff
              currentMetadataOffset := recordOff, currentNeedsFooter := needsFooter }

/-- What an allocation of the handle needs: the windows that are found meet `A`, so does a
blank sector, and a window of `A` leaves the handle in `F`. -/
structure AllocWindows (I : World → Prop) (h : Nat) (A : Nat → Nat → Prop) (F : File → Prop) : Prop where
  found : ∀ s slot, Yields I (findSectorFreeWindow s allocMinUsableFree slot true)
    fun win => A win.dataOff win.recordOff
  blank : Yields I getFs fun fs =>
    Keeps I (note (.narrow [fs.sectorSize - sectorFooterSize - mdFileRecordSize])) ∧
      A 0 (u16 (fs.sectorSize - sectorFooterSize - mdFileRecordSize))
  taken : ∀ dataOff recordOff needsFooter, A dataOff recordOff →
    Gives I (modifyFile h fun f => f.setWindow dataOff recordOff needsFooter)
      fun _ w => F (w.files h).unreserved

section Take

variable {A : Nat → Nat → Prop} {F : File → Prop} {s : Nat}

omit [HandleInv I] [Opts] in
/-- A program that ends in a window, and then keeps what it keeps anyway. -/
theorem AllocWindows.then {α β : Type} {x : M α} {f : α → M β}
  (hx : Gives I x fun _ w => F (w.files h).unreserved)
    (hf : ∀ a, Keeps (With I h F) (f a)) : Gives I (x >>= f) fun _ w => F (w.files h).unreserved := by
  refine hx.bind fun a w hw hF => ?_
  have hw' := (hf a).keeps w ⟨hw, hF⟩
  exact ⟨hw'.1, fun _ _ => hw'.2⟩

theorem useAllocWindow_gives (hA : AllocWindows I h A F) {dataOff recordOff : Nat} (ha : A dataOff recordOff)
    (needsFooter : Bool) : Gives I (useAllocWindow h s dataOff recordOff needsFooter)
      fun _ w => F (w.files h).unreserved :=
  AllocWindows.then (hA.taken dataOff recordOff needsFooter ha) fun _ => inferInstance

theorem useBlankSector_gives (hA : AllocWindows I h A F) :
    Gives I (useBlankSector h s) fun _ w => F (w.files h).unreserved := by
  rw [useBlankSector]
  refine hA.blank.bindGives fun fs hfs => hfs.1.bindGives fun _ => ?_
  exact AllocWindows.then (useAllocWindow_gives hA hfs.2 true) fun _ => inferInstance

theorem tryReservedSector_gives (hA : AllocWindows I h A F) :
    Gives I (tryReservedSector h) fun a w => ∀ s, a.1 = some s → F (w.files h).unreserved := by
  have hnone : ∀ o : Option Nat, Gives I (pure (none, o) : M (Option Nat × Option Nat))
      fun a w => ∀ s, a.1 = some s → F (w.files h).unreserved := fun _ => Gives.pure fun _ _ => nofun
  rw [tryReservedSector]
  refine Keeps.bindGives inferInstance fun w => Gives.ite (fun _ => hnone _) fun _ => ?_
  refine Gives.ite (fun _ => Keeps.bindGives inferInstance fun _ => hnone _) fun _ => ?_
  refine Keeps.bindGives inferInstance fun r => ?_
  split
  · have hnext : Keeps I (modifyFile h fun f =>
        { f with reserveFirst := if f.reserveCount - 1 = 0 then 0 else u16 (f.reserveFirst + 1)
                 reserveCount := f.reserveCount - 1 }) := keeps_reservation fun _ => rfl
    refine Keeps.bindGives inferInstance fun _ => hnext.bindGives fun _ => ?_
    refine Gives.mono (AllocWindows.then (useBlankSector_gives hA) fun _ => inferInstance) fun _ _ hF _ _ => hF
  · exact Keeps.bindGives inferInstance fun _ => Gives.ite (fun _ => Gives.throw _) fun _ => hnone _

theorem allocSectorLoop_gives (hA : AllocWindows I h A F) {skip : Option Nat} {fuel : Nat} :
    Gives I (allocSectorLoop h skip fuel s) fun _ w => F (w.files h).unreserved := by
  induction fuel generalizing s with
  | zero => exact Gives.throw _
  | succ fuel ih =>
    rw [allocSectorLoop]
    refine Keeps.bindGives inferInstance fun w => Gives.ite (fun _ => ih) fun _ => ?_
    refine (hA.found s (w.files h).slot).attempt.bindGives fun r hr => ?_
    split
    · exact ih
    · exact Gives.throw _
    · next win =>
      have hreserve : Keeps I (modifyFs fun fs => { fs with compactionReserve := fs.compactionReserve ++ [s] }) :=
        keeps_bookkeeping (fun _ => rfl) (fun _ => rfl) (fun _ => rfl) (fun _ => rfl) fun _ => rfl
      refine Gives.ite (fun _ => ih) fun _ => Gives.ite (fun _ => ?_) fun _ => ?_
      · exact hreserve.bindGives fun _ => Keeps.bindGives inferInstance fun _ => ih
      · exact AllocWindows.then (useAllocWindow_gives hA (hr win rfl) win.needsFooter) fun _ => inferInstance

theorem allocSectorOnce_gives (hA : AllocWindows I h A F) {skip : Option Nat} :
    Gives I (allocSectorOnce h skip) fun _ w => F (w.files h).unreserved := by
  rw [allocSectorOnce]
  exact Keeps.bindGives inferInstance fun fs => Gives.ite (fun _ => Gives.throw _) fun _ =>
    allocSectorLoop_gives hA

theorem tryCompactionReserveLoop_gives (hA : AllocWindows I h A F) {list : List Nat} :
    Gives I (tryCompactionReserveLoop h list) fun _ w => F (w.files h).unreserved := by
  induction list with
  | nil => exact Gives.throw _
  | cons reserved rest ih =>
    rw [tryCompactionReserveLoop]
    refine Keeps.bindGives inferInstance fun file =>
      (hA.found reserved file.slot).attempt.bindGives fun r hr => ?_
    split
    · exact ih
    · exact Gives.throw _
    · next win =>
      refine Gives.ite (fun _ => ih) fun _ => ?_
      refine Keeps.bindGives inferInstance fun _ => Keeps.bindGives inferInstance fun _ => ?_
      exact AllocWindows.then (useAllocWindow_gives hA (hr win rfl) win.needsFooter) fun _ => inferInstance

omit [Opts] [HandleInv I] in
theorem ifNoSpace_gives {x y : M Nat} {G : World → Prop} (hx : Gives I x fun _ w => G w)
    (hy : Gives I y fun _ w => G w) : Gives I (ifNoSpace x y) fun _ w => G w := by
  rw [ifNoSpace]
  refine hx.attempt.bind fun r w hw hr => ?_
  split
  · exact ⟨hw, fun _ _ => hr _ rfl⟩
  · exact ⟨hy.keeps w hw, fun b hb => hy.post w b hw hb⟩
  · refine ⟨hw, fun b hb => ?_⟩
    cases hb

/-- The scan, and the scan after the reservations have been halved. -/
theorem allocScan_gives (hA : AllocWindows I h A F) (skip : Option Nat) :
    Gives I (ifNoSpace (allocSectorOnce h skip) (allocAfterHalving h skip)) fun _ w => F (w.files h).unreserved := by
  refine ifNoSpace_gives (allocSectorOnce_gives hA) ?_
  rw [allocAfterHalving]
  exact Keeps.bindGives inferInstance fun _ => Gives.ite (fun _ => allocSectorOnce_gives hA) fun _ =>
    Gives.throw _

section Next

variable [∀ s minFree slot normal, Keeps I (findSectorFreeWindow s minFree slot normal)]

theorem allocateErasedGcSector_gives (hA : AllocWindows I h A F) :
    Gives I (allocateErasedGcSector h) fun _ w => F (w.files h).unreserved :=
  Keeps.bindGives inferInstance fun _ => useBlankSector_gives hA

omit [∀ s minFree slot normal, Keeps I (findSectorFreeWindow s minFree slot normal)] in
theorem tryCompactionReserveForAlloc_gives (hA : AllocWindows I h A F) :
    Gives I (tryCompactionReserveForAlloc h) fun _ w => F (w.files h).unreserved :=
  Keeps.bindGives inferInstance fun _ => tryCompactionReserveLoop_gives hA

theorem allocRelaxedCompaction_gives (hA : AllocWindows I h A F) :
    Gives I (allocRelaxedCompaction h) fun _ w => F (w.files h).unreserved :=
  Keeps.bindGives inferInstance fun _ => useBlankSector_gives hA

theorem allocUnreserved_gives (hA : AllocWindows I h A F) (skip : Option Nat) :
    Gives I (allocUnreserved h skip) fun _ w => F (w.files h).unreserved := by
  have hscan := allocScan_gives hA skip
  rw [allocUnreserved]
  refine Gives.ite (fun _ => ?_) fun _ => hscan
  exact ifNoSpace_gives (ifNoSpace_gives (ifNoSpace_gives hscan (allocateErasedGcSector_gives hA))
    (tryCompactionReserveForAlloc_gives hA)) (allocRelaxedCompaction_gives hA)

/-- `fffs_alloc_next_sector` leaves the handle with a window of `A`. -/
theorem allocNextSector_gives (hA : AllocWindows I h A F) :
    Gives I (allocNextSector h) fun _ w => F (w.files h).unreserved := by
  have hfree := allocUnreserved_gives hA
  rw [allocNextSector]
  refine (tryReservedSector_gives hA).bind fun a w hw ha => ?_
  have hsector : Gives (fun w => I w ∧ ∀ s, a.1 = some s → F (w.files h).unreserved)
      (a.1.elim (allocUnreserved h a.2) pure) fun _ w => F (w.files h).unreserved := by
    rcases hres : a.1 with _ | s
    · refine ⟨fun w hw => ⟨(hfree a.2).keeps w hw.1, (by intro _ hno; cases hno)⟩, fun w b hw hb => (hfree a.2).post w b hw.1 hb⟩
    · exact ⟨fun w hw => hw, fun w b hw _ => hw.2 s rfl⟩
  have hall := Gives.bind (H := fun _ w => F (w.files h).unreserved)
    (f := fun sector => do note (.alloc h sector); pure sector) hsector fun sector w hw hF => by
      refine ⟨⟨HandleInv.noteSector rfl hw.1, hw.2⟩, fun _ _ => hF⟩
  exact ⟨(hall.keeps w ⟨hw, ha⟩).1, fun b hb => hall.post w b ⟨hw, ha⟩ hb⟩

end Next

end Take

end Alloc

/-! ## Records and chains -/

section Record

variable {h : Nat}

instance (s next spanLen : Nat) (total : Option Nat) (makeLive commit : Bool) :
    Keeps I (finishExtentMetadata h s next spanLen total makeLive commit) := by
  have hsize : ∀ off, Keeps I (total.elim (pure ()) fun size => programAligned (off + 11) (storeLe32 size)) := by
    intro off
    cases total with
    | none => exact (inferInstance : Keeps I (pure () : M Unit))
    | some size => exact (inferInstance : Keeps I (programAligned (off + 11) (storeLe32 size)))
  unfold finishExtentMetadata
  refine Keeps.bind (k := fun file => Keeps.bind (k := fun fs => Keeps.bind (k := fun r => ?_)))
  exact Keeps.bind (k := fun _ => Keeps.bind (j := hsize _))

instance : Keeps I (finishDeferredRootMetadata h) := by
  unfold finishDeferredRootMetadata; infer_instance

/-- The record of an extent.  The sum of its data length may be cut. -/
theorem recordExtent_keeps {old : File} {next : Nat}
    (hnote : ∀ w, I w → I ((noteDataLen (w.files h) old.current old.currentDataLen).run w).2) :
    Keeps I (recordExtent h old next) := by
  constructor
  intro w hw
  rw [recordExtent]
  split
  · rw [beginExtentMetadata, bind_of_ok (run_getFile h w)]
    exact Keeps.after (hnote w hw) fun _ => inferInstance
  · rw [writeExtentMetadata, bind_of_ok (run_getFile h w)]
    exact Keeps.after (hnote w hw) fun _ => inferInstance

/-- The end of a span.  Its length may be cut. -/
theorem flushPendingSpanHead_keeps {next : Nat} {final : Bool}
    (hnote : ∀ w, I w → I ((note (.narrow [pendingSpan (w.files h)])).run w).2)
    (hspan : Keeps I (modifyFile h fun f => { f with spanHead := 0 })) :
    Keeps I (flushPendingSpanHead h next final) := by
  constructor
  intro w hw
  rw [flushPendingSpanHead, bind_of_ok (run_getFile h w)]
  split
  · exact hw
  · exact Keeps.after (hnote w hw) fun _ => inferInstance

/-- The refresh of the version that a writer replaces. -/
theorem refreshOldHead_keeps
    (hold : ∀ g : Nat × Nat, Keeps I (modifyFile h fun f => { f with oldHead := g.1, oldNext := g.2 }))
    (hnone : Keeps I (modifyFile h fun f => { f with oldHead := 0 })) : Keeps I (refreshOldHead h) := by
  unfold refreshOldHead
  refine Keeps.bind (k := fun file => ?_)
  split
  · refine Keeps.bind (k := fun res => ?_)
    split
    · refine Keeps.bind (k := fun res => ?_)
      split
      · exact hold (_, _)
      · infer_instance
    · exact hnone
    · infer_instance
  · infer_instance

instance (slot depth current : Nat) (next : Option Nat) (visited : Nat) (first accounted : Bool) :
    Keeps I (invalidateChainLoop slot depth current next visited first accounted) := by
  induction depth generalizing current next visited first accounted with
  | zero => unfold invalidateChainLoop; infer_instance
  | succ depth ih =>
    unfold invalidateChainLoop
    split
    · infer_instance
    · refine Keeps.bind (k := fun fs => Keeps.bind (k := fun res => ?_))
      split <;> infer_instance

/-- The delete of a chain.  The average takes the chain in. -/
theorem invalidateCommitted_keeps {slot head next : Nat}
    (hsample : ∀ v, Keeps I (do note (.sample v); modifyFs (fsinfoSampleChain v))) :
    Keeps I (invalidateCommitted slot head next) := by
  unfold invalidateCommitted invalidateOldChain
  infer_instance

end Record

end Fastffs
