import Fastffs.StoreCompact

/-!
# Allocation keeps the store

`fffs_alloc_next_sector` for a handle that starts a file, while no other handle is open.  It
scans the sectors, collects, compacts, and takes a sector of the compaction reserve.  Whatever
it returns, the files are kept.  A sector that it returns has room for a root of the handle.
-/

namespace Fastffs

open Prog
open Nor (Byte Mem blank)

variable [Opts] {S c n s h : Nat} {x md : Prop} {F : Nat → Option SmallFile} {st : Shelves Nat Nat Entry}
  {bad : Nat → Prop} {v w w' : World} {f : File} {win : FreeWindow}

/-- The store and the handles have not changed, and the collector stands where it stood. -/
structure Still (S c n : Nat) (x : Prop) (F : Nat → Option SmallFile) (st : Shelves Nat Nat Entry)
    (bad : Nat → Prop) (v w : World) : Prop where
  holds : Holds S c n x F st bad w
  files : w.files = v.files
  walk : w.fs.gcMd = v.fs.gcMd

section Still

theorem Still.setFs {fs : Fs} (hs : Still S c n x F st bad v w) (hfs : indexFs fs = indexFs w.fs)
    (hopen : fs.openFiles = w.fs.openFiles) (hwalk : fs.gcMd = w.fs.gcMd) :
    Still S c n x F st bad v { w with fs := fs } where
  holds := { hs.holds with
    idle := hopen.trans hs.holds.idle
    stored := hs.holds.stored.setFs hfs fun hactive => hwalk ▸ hs.holds.stored.walk (hwalk ▸ hactive) }
  files := hs.files
  walk := hwalk.trans hs.walk

theorem Still.keeps {α : Type} {y : M α} (hin : ∀ w, Keeps (Inside S 0 0 0 w) y)
    (hwork : ∀ w, Keeps (SameWork w) y) : Keeps (Still S c n x F st bad v) y := by
  constructor
  intro w hs
  obtain ⟨hholds, hsame⟩ := @Holds.keeps _ _ _ _ _ _ _ _ _ _ _ hs.holds (hin w) (hwork w)
  exact ⟨hholds, hsame.files.trans hs.files, hsame.gcMd.trans hs.walk⟩

instance (sector : Nat) : Keeps (Still S c n x F st bad v) (allocMapMarkUsed sector) :=
  Still.keeps (fun _ => inferInstance) fun _ => inferInstance

instance (sector : Nat) : Keeps (Still S c n x F st bad v) (allocMapMarkUnknown sector) :=
  Still.keeps (fun _ => inferInstance) fun _ => inferInstance

instance (act : Act) : Keeps (Still S c n x F st bad v) (note act) :=
  Still.keeps (fun _ => inferInstance) fun _ => inferInstance

instance (t : Nat) : Keeps (Still S c n x F st bad v) (allocCompactionReserveRemove t) :=
  ⟨fun _ hs => hs.setFs rfl rfl rfl⟩

instance (g : Fs → List Nat) :
    Keeps (Still S c n x F st bad v) (modifyFs fun fs => { fs with compactionReserve := g fs }) :=
  ⟨fun _ hs => hs.setFs rfl rfl rfl⟩

instance (t : Nat) : Keeps (Still S c n x F st bad v) (modifyFs fun fs => { fs with allocCursor := t }) :=
  ⟨fun _ hs => hs.setFs rfl rfl rfl⟩

theorem Still.find {slot len : Nat} {normal : Bool} (hlen : 0 < len) :
    Yields (Still S c n x F st bad v) (findSectorFreeWindow s len slot normal) fun win =>
      Offers S c n st bad slot len (s, win) := by
  refine ⟨fun w hs => ?_, fun w win hs hok => ?_⟩
  · obtain ⟨hstored, hsame, -⟩ := hs.holds.stored.find rfl
    exact ⟨{ hs.holds with idle := hsame.openFiles.trans hs.holds.idle, stored := hstored },
      hsame.files.trans hs.files, hsame.gcMd.trans hs.walk⟩
  · obtain ⟨-, -, -, hwin⟩ := hs.holds.stored.find rfl
    exact hwin win hok hlen

end Still

/-! ## A window for a handle -/

/-- The handle `f` at the start of the window. -/
def File.atWindow (f : File) (win : FreeWindow) (reserveFirst reserveCount : Nat) : File :=
  { f with dataOffset := win.dataOff, currentWriteOffset := win.dataOff, currentMetadataOffset := win.recordOff
           currentNeedsFooter := win.needsFooter, reserveFirst := reserveFirst, reserveCount := reserveCount }

/-- The handle has got a window of the sector.  `f` is the handle before. -/
structure Granted (S c n : Nat) (x : Prop) (F : Nat → Option SmallFile) (h : Nat) (f : File) (s : Nat)
    (st : Shelves Nat Nat Entry) (bad : Nat → Prop) (win : FreeWindow) (w : World) : Prop where
  holds : Holds S c n x F st bad w
  takes : Offers S c n st bad f.slot allocMinUsableFree (s, win)
  file : ∃ first count, w.files h = f.atWindow win first count

section Granted

theorem Granted.modifyFile {g : File → File}
    (hfile : ∀ first count, ∃ first' count', g (f.atWindow win first count) = f.atWindow win first' count') :
    Keeps (Granted S c n x F h f s st bad win) (modifyFile h g) := by
  constructor
  intro w hg
  obtain ⟨first, count, heq⟩ := hg.file
  refine ⟨⟨hg.holds.idle, hg.holds.stored.ofSame (fun _ => ⟨id, rfl, rfl, fun _ _ => rfl, rfl⟩)
    hg.holds.stored.walk, hg.holds.tidy, hg.holds.exact, hg.holds.get⟩, hg.takes, ?_⟩
  change ∃ first count, (if h = h then g (w.files h) else w.files h) = _
  rw [if_pos rfl, heq]
  exact hfile first count

theorem Granted.keeps {α : Type} {y : M α} (hin : ∀ w, Keeps (Inside S 0 0 0 w) y)
    (hwork : ∀ w, Keeps (SameWork w) y) : Keeps (Granted S c n x F h f s st bad win) y := by
  constructor
  intro w hg
  obtain ⟨hholds, hsame⟩ := @Holds.keeps _ _ _ _ _ _ _ _ _ _ _ hg.holds (hin w) (hwork w)
  exact ⟨hholds, hg.takes, by rw [hsame.files]; exact hg.file⟩

instance (sector : Nat) : Keeps (Granted S c n x F h f s st bad win) (allocMapMarkUsed sector) :=
  Granted.keeps (fun _ => inferInstance) fun _ => inferInstance

instance (act : Act) : Keeps (Granted S c n x F h f s st bad win) (note act) :=
  Granted.keeps (fun _ => inferInstance) fun _ => inferInstance

instance (t : Nat) : Keeps (Granted S c n x F h f s st bad win) (modifyFs fun fs => { fs with allocCursor := t }) := by
  constructor
  intro w hg
  refine ⟨{ hg.holds with idle := hg.holds.idle, stored := ?_ }, hg.takes, hg.file⟩
  exact hg.holds.stored.setFs rfl hg.holds.stored.walk

instance (k next : Nat) : Keeps (Granted S c n x F h f s st bad win) (reserveAfterLoop h k next) := by
  have hreserve : ∀ next, Keeps (Granted S c n x F h f s st bad win) (modifyFile h fun f =>
      { f with reserveFirst := if f.reserveCount = 0 then next else f.reserveFirst
               reserveCount := f.reserveCount + 1 }) :=
    fun next => Granted.modifyFile fun first count => ⟨_, _, rfl⟩
  induction k generalizing next with
  | zero => unfold reserveAfterLoop; infer_instance
  | succ k ih => unfold reserveAfterLoop; infer_instance

instance (sector : Nat) : Keeps (Granted S c n x F h f s st bad win) (reserveAfter h sector) := by
  unfold reserveAfter; infer_instance

end Granted

theorem reserveAfterLoop_ok (k next : Nat) (w : World) : ((reserveAfterLoop h k next).run w).1 = .ok () := by
  induction k generalizing next w with
  | zero => rfl
  | succ k ih =>
    rw [reserveAfterLoop, bind_of_ok (run_get w)]
    split
    · rw [bind_of_ok (run_note (.reserve next) w)]
      split
      · exact ih _ _
      · rfl
    · rfl

/-- `use_alloc_window` gives the window to the handle. -/
theorem useAllocWindow_run (hs : Still S c n x F st bad v w) (hfile : v.files h = f)
    (htakes : Offers S c n st bad f.slot allocMinUsableFree (s, win)) :
    ∃ w', (useAllocWindow h s win.dataOff win.recordOff win.needsFooter).run w = (.ok (), w') ∧
      Granted S c n x F h f s st bad win w' := by
  rw [useAllocWindow]
  have h1 : Granted S c n x F h f s st bad win ((modifyFile h fun f =>
      { f with dataOffset := win.dataOff, currentWriteOffset := win.dataOff
               currentMetadataOffset := win.recordOff, currentNeedsFooter := win.needsFooter }).run w).2 := by
    refine ⟨⟨hs.holds.idle, hs.holds.stored.ofSame (fun _ => ⟨id, rfl, rfl, fun _ _ => rfl, rfl⟩)
      hs.holds.stored.walk, hs.holds.tidy, hs.holds.exact, hs.holds.get⟩, htakes, f.reserveFirst, f.reserveCount, ?_⟩
    rw [← hfile, ← hs.files]
    exact if_pos rfl
  have hok : ∀ w1 : World, ((Prog.when win.needsFooter (reserveAfter h s)).run w1).1 = .ok () := by
    intro w1
    by_cases hfooter : win.needsFooter = true
    · rw [when_pos hfooter, reserveAfter, bind_of_ok (run_getFile h w1)]
      exact reserveAfterLoop_ok _ _ _
    · rw [when_neg hfooter]
      rfl
  exact ⟨_, Prod.ext (hok _) rfl, Keeps.after h1 fun _ => inferInstance⟩

/-! ## One way of allocating -/

/-- What a way of allocating leaves.  `f` is the handle before, and `md` says whether the
collector ends its walk before the next way is tried. -/
structure Tried (S c n : Nat) (x md : Prop) (F : Nat → Option SmallFile) (h : Nat) (f : File)
    (r : Except Status Nat) (w : World) : Prop where
  kept : Kept S c n x F w
  granted : ∀ s, r = .ok s → ∃ st bad win, Granted S c n x F h f s st bad win w
  again : r = .error .noSpace → w.files h = f ∧ (md → w.fs.gcMd.active = false)

section Tried

variable {err : Status} {r : Except Status Nat}

theorem Still.tried (hs : Still S c n x F st bad v w) (hfile : v.files h = f)
    (hmd : md → v.fs.gcMd.active = false) : Tried S c n x md F h f (.error err) w where
  kept := ⟨st, bad, hs.holds⟩
  granted _ hno := by cases hno
  again _ := ⟨by rw [hs.files, hfile], fun h => by rw [hs.walk, hmd h]⟩

theorem Granted.tried (hg : Granted S c n x F h f s st bad win w) : Tried S c n x md F h f (.ok s) w where
  kept := ⟨st, bad, hg.holds⟩
  granted t ht := by
    cases ht
    exact ⟨st, bad, win, hg⟩
  again hno := by cases hno

/-- The scan of `alloc_sector_once`. -/
theorem allocSectorLoop_tried {skip : Option Nat} {k : Nat} (hs : Still S c n x F st bad v w) (hfile : v.files h = f)
    (hmd : md → v.fs.gcMd.active = false) : Tried S c n x md F h f ((allocSectorLoop h skip k s).run w).1
      ((allocSectorLoop h skip k s).run w).2 := by
  induction k generalizing s w with
  | zero => exact hs.tried hfile hmd
  | succ k ih =>
    have hslot : (w.files h).slot = f.slot := by rw [hs.files, hfile]
    rw [allocSectorLoop, bind_of_ok (run_get w)]
    dsimp only
    split
    · exact ih hs
    · rw [hslot]
      have hfind := @Still.find _ S c n s x F st bad v f.slot allocMinUsableFree true (by decide)
      have h1 := hfind.keeps w hs
      have htakes := hfind.value w
      generalize hrun : (findSectorFreeWindow s allocMinUsableFree f.slot true).run w = res at h1 htakes
      obtain ⟨res, w1⟩ := res
      rw [bind_of_ok (by rw [run_attempt, hrun])]
      dsimp only at h1 htakes ⊢
      split
      · exact ih h1
      · exact h1.tried hfile hmd
      · next win =>
        split
        · exact ih h1
        · split
          · have h2 := (inferInstance : Keeps (Still S c n x F st bad v) (do
              modifyFs fun fs => { fs with compactionReserve := fs.compactionReserve ++ [s] }
              allocMapMarkUsed s)).keeps w1 h1
            rw [bind_of_ok (run_modifyFs ..)]
            exact ih h2
          · obtain ⟨w2, huse, hgranted⟩ := useAllocWindow_run h1 hfile (htakes win hs rfl)
            rw [bind_of_ok huse]
            by_cases hdense : win.mdRecords ≥ allocTargetDensity
            · rw [when_pos hdense]
              have h3 := (inferInstance : Keeps (Granted S c n x F h f s st bad win) (modifyFs fun fs =>
                { fs with allocCursor := nextDataSector w.fs s })).keeps w2 hgranted
              exact h3.tried
            · rw [when_neg hdense]
              exact hgranted.tried

omit [Opts] in
theorem window_blank {S slot : Nat} (hsmall : S ≤ 65536) (hge : 256 ≤ S) :
    Vacant S [] slot allocMinUsableFree ⟨0, u16 (S - sectorFooterSize - mdFileRecordSize), true, 0⟩ := by
  have hu : u16 (S - sectorFooterSize - mdFileRecordSize) = S - sectorFooterSize - mdFileRecordSize :=
    Nat.mod_eq_of_lt (by rw [sectorFooterSize, mdFileRecordSize]; omega)
  rw [hu]
  refine ⟨rfl, ?_, ?_, ?_, rfl, fun e he => by cases he⟩
  · change S - sectorFooterSize - mdFileRecordSize + mdFileRecordSize = S - sectorFooterSize
    rw [sectorFooterSize, mdFileRecordSize]
    omega
  · change 0 + 128 ≤ S - sectorFooterSize - mdFileRecordSize
    rw [sectorFooterSize, mdFileRecordSize]
    omega
  · change sectorFooterSize ≤ S - sectorFooterSize - mdFileRecordSize
    rw [sectorFooterSize, mdFileRecordSize]
    omega

/-- A blank sector goes to the handle. -/
theorem useBlankSector_tried (hkept : Kept S c n x F w) (hs : InData n c s) (hblank : BlankSector S s w)
    (hfile : w.files h = f) : Tried S c n x md F h f ((useBlankSector h s).run w).1 ((useBlankSector h s).run w).2 := by
  obtain ⟨st, bad, hholds⟩ := hkept
  obtain ⟨hgood, hnil⟩ := hholds.stored.of_blank hs hblank
  have hp := hholds.stored.place hs
  have hstill : Still S c n x F st bad w w := ⟨hholds, rfl, rfl⟩
  rw [useBlankSector, bind_of_ok (run_getFs w), hp.sectorSize]
  have h1 := (inferInstance : Keeps (Still S c n x F st bad w)
    (note (.narrow [S - sectorFooterSize - mdFileRecordSize]))).keeps w hstill
  have hnote : (note (.narrow [S - sectorFooterSize - mdFileRecordSize])).run w =
      (.ok (), ((note (.narrow [S - sectorFooterSize - mdFileRecordSize])).run w).2) := rfl
  rw [bind_of_ok hnote]
  obtain ⟨w2, huse, hgranted⟩ := useAllocWindow_run h1 hfile
    ⟨hs, hgood, by rw [hnil]; exact window_blank hholds.stored.small hp.size_ge⟩
  rw [bind_of_ok huse]
  exact hgranted.tried

theorem Tried.kept_noSpace {r : Except Status Nat} {w : World} (ht : Tried S c n x md F h f r w)
    (hr : r = .error .noSpace) : Kept S c n x F w ∧ w.files h = f ∧ (md → w.fs.gcMd.active = false) :=
  ⟨ht.kept, ht.again hr⟩

/-- Go on with the next way. -/
theorem ifNoSpace_tried {y z : M Nat} {md' : Prop} (hy : Tried S c n x md F h f (y.run w).1 (y.run w).2)
    (hz : ∀ w1, Kept S c n x F w1 → w1.files h = f → (md → w1.fs.gcMd.active = false) →
      Tried S c n x md' F h f (z.run w1).1 (z.run w1).2) :
    Tried S c n x md' F h f ((ifNoSpace y z).run w).1 ((ifNoSpace y z).run w).2 := by
  generalize hres : y.run w = res at hy
  obtain ⟨res, w1⟩ := res
  rw [ifNoSpace, bind_of_ok (by rw [run_attempt, hres])]
  dsimp only at hy ⊢
  split
  · next s =>
    exact ⟨hy.kept, hy.granted, fun hno => by cases hno⟩
  · obtain ⟨hkept, hfile, hmd⟩ := hy.kept_noSpace rfl
    exact hz w1 hkept hfile hmd
  · next err hne =>
    exact ⟨hy.kept, fun _ hno => (by cases hno), fun hno => absurd (Except.error.inj hno) hne⟩

theorem allocSectorOnce_tried {skip : Option Nat} (hkept : Kept S c n x F w) (hfile : w.files h = f) :
    Tried S c n x False F h f ((allocSectorOnce h skip).run w).1 ((allocSectorOnce h skip).run w).2 := by
  obtain ⟨st, bad, hholds⟩ := hkept
  have hstill : Still S c n x F st bad w w := ⟨hholds, rfl, rfl⟩
  rw [allocSectorOnce, bind_of_ok (run_getFs w)]
  split
  · exact hstill.tried hfile fun hno => hno.elim
  · exact allocSectorLoop_tried hstill hfile fun hno => hno.elim

/-- No handle has a reservation. -/
theorem allocAfterHalving_tried {skip : Option Nat} (hkept : Kept S c n x F w) (hfile : w.files h = f) :
    Tried S c n x False F h f ((allocAfterHalving h skip).run w).1 ((allocAfterHalving h skip).run w).2 := by
  obtain ⟨st, bad, hholds⟩ := hkept
  have hstill : Still S c n x F st bad w w := ⟨hholds, rfl, rfl⟩
  have hhalve : halveReservations.run w = (.ok false, w) := by
    rw [halveReservations, bind_of_ok (run_getFs w), hholds.idle]
    rfl
  rw [allocAfterHalving, bind_of_ok hhalve]
  exact hstill.tried hfile fun hno => hno.elim

theorem Kept.ofNot (hx : ¬ x) (hkept : Kept S c n False F w) : Kept S c n x F w := by
  obtain ⟨st, bad, hholds⟩ := hkept
  exact ⟨st, bad, { hholds with exact := fun h => absurd h hx, idle := hholds.idle }⟩

theorem allocateErasedGcSector_tried (hx : ¬ x) (hkept : Kept S c n x F w) (hfile : w.files h = f) :
    Tried S c n x True F h f ((allocateErasedGcSector h).run w).1 ((allocateErasedGcSector h).run w).2 := by
  have hgc := gcUntilErased_run hkept.weaken
  refine run_bind_cases (J := fun r w' => Tried S c n x True F h f r w') (fun err w1 hrun => ?_) fun s w1 hrun => ?_
  · rw [hrun] at hgc
    refine ⟨.ofNot hx hgc.kept, fun _ hno => (by cases hno), fun hfull => ⟨by rw [hgc.files, hfile], fun _ => ?_⟩⟩
    cases hfull
    exact hgc.idle rfl
  · rw [hrun] at hgc
    obtain ⟨hs, hblank⟩ := hgc.erased s rfl
    exact useBlankSector_tried (.ofNot hx hgc.kept) hs hblank (by rw [hgc.files, hfile])

theorem tryCompactionReserveLoop_tried {list : List Nat} (hs : Still S c n x F st bad v w) (hfile : v.files h = f)
    (hidle : v.fs.gcMd.active = false) : Tried S c n x True F h f ((tryCompactionReserveLoop h list).run w).1
      ((tryCompactionReserveLoop h list).run w).2 := by
  induction list generalizing w with
  | nil => exact hs.tried hfile fun _ => hidle
  | cons s rest ih =>
    have hslot : (w.files h).slot = f.slot := by rw [hs.files, hfile]
    rw [tryCompactionReserveLoop, bind_of_ok (run_getFile h w), hslot]
    have hfind := @Still.find _ S c n s x F st bad v f.slot allocMinUsableFree true (by decide)
    have h1 := hfind.keeps w hs
    have htakes := hfind.value w
    generalize hrun : (findSectorFreeWindow s allocMinUsableFree f.slot true).run w = res at h1 htakes
    obtain ⟨res, w1⟩ := res
    rw [bind_of_ok (by rw [run_attempt, hrun])]
    dsimp only at h1 htakes ⊢
    split
    · exact ih h1
    · exact h1.tried hfile fun _ => hidle
    · next win =>
      split
      · exact ih h1
      · have h2 := (inferInstance : Keeps (Still S c n x F st bad v) (allocCompactionReserveRemove s)).keeps w1 h1
        have h3 := (inferInstance : Keeps (Still S c n x F st bad v) (allocMapMarkUnknown s)).keeps _ h2
        obtain ⟨w4, huse, hgranted⟩ := useAllocWindow_run h3 hfile (htakes win hs rfl)
        have hremove : (allocCompactionReserveRemove s).run w1 =
          (.ok (), ((allocCompactionReserveRemove s).run w1).2) := rfl
        have hmark : (allocMapMarkUnknown s).run ((allocCompactionReserveRemove s).run w1).2 =
          (.ok (), ((allocMapMarkUnknown s).run ((allocCompactionReserveRemove s).run w1).2).2) := rfl
        rw [bind_of_ok hremove, bind_of_ok hmark, bind_of_ok huse]
        have h5 := (inferInstance : Keeps (Granted S c n x F h f s st bad win) (modifyFs fun fs =>
          { fs with allocCursor := s })).keeps w4 hgranted
        exact h5.tried

theorem allocRelaxedCompaction_tried (hx : ¬ x) (hkept : Kept S c n x F w) (hfile : w.files h = f)
    (hidle : w.fs.gcMd.active = false) :
    Tried S c n x True F h f ((allocRelaxedCompaction h).run w).1 ((allocRelaxedCompaction h).run w).2 := by
  have hgc := @gcCompactUntilErased_run _ _ _ _ _ w _ true ⟨hkept.weaken, rfl, hidle⟩
  refine run_bind_cases (J := fun r w' => Tried S c n x True F h f r w') (fun err w1 hrun => ?_) fun s w1 hrun => ?_
  · rw [hrun] at hgc
    exact ⟨.ofNot hx hgc.left.1, fun _ hno => (by cases hno), fun _ => ⟨by rw [hgc.left.2.1, hfile],
      fun _ => hgc.left.2.2⟩⟩
  · rw [hrun] at hgc
    obtain ⟨hs, hblank⟩ := hgc.erased s rfl
    exact useBlankSector_tried (.ofNot hx hgc.left.1) hs hblank (by rw [hgc.left.2.1, hfile])

end Tried

/-! ## Every way -/

/-- The ways past the reservation of the writer.  Only a build that compacts leaves copies of roots. -/
theorem allocUnreserved_tried (hx : x → Opts.gcOnAllocFailure = false) (hkept : Kept S c n x F w)
    (hfile : w.files h = f) :
    Tried S c n x False F h f ((allocUnreserved h none).run w).1 ((allocUnreserved h none).run w).2 := by
  have hscan : Tried S c n x False F h f ((ifNoSpace (allocSectorOnce h none) (allocAfterHalving h none)).run w).1
      ((ifNoSpace (allocSectorOnce h none) (allocAfterHalving h none)).run w).2 :=
    ifNoSpace_tried (allocSectorOnce_tried hkept hfile) fun w1 hkept1 hfile1 _ =>
      allocAfterHalving_tried hkept1 hfile1
  rw [allocUnreserved]
  split
  · next hgc =>
    have hx' : ¬ x := fun h => by
      rw [hx h] at hgc
      cases hgc
    have hall := ifNoSpace_tried (z := allocRelaxedCompaction h) (ifNoSpace_tried (z := tryCompactionReserveForAlloc h)
      (ifNoSpace_tried hscan fun w1 hkept1 hfile1 _ => allocateErasedGcSector_tried hx' hkept1 hfile1)
      fun w1 hkept1 hfile1 hidle => by
        obtain ⟨st, bad, hholds⟩ := hkept1
        rw [tryCompactionReserveForAlloc, bind_of_ok (run_getFs w1)]
        exact tryCompactionReserveLoop_tried ⟨hholds, rfl, rfl⟩ hfile1 (hidle trivial))
      fun w1 hkept1 hfile1 hidle => allocRelaxedCompaction_tried hx' hkept1 hfile1 (hidle trivial)
    exact ⟨hall.kept, hall.granted, fun hfull => ⟨(hall.again hfull).1, fun hno => hno.elim⟩⟩
  · exact hscan

/-- `fffs_alloc_next_sector` for a handle without a reservation keeps the files, and a sector that
it returns has a window for the handle. -/
theorem allocNextSector_run (hx : x → Opts.gcOnAllocFailure = false) (hkept : Kept S c n x F w)
    (hreserve : (w.files h).reserveCount = 0) :
    Kept S c n x F ((allocNextSector h).run w).2 ∧ ∀ s, ((allocNextSector h).run w).1 = .ok s →
      ∃ st bad win, Granted S c n x F h (w.files h) s st bad win ((allocNextSector h).run w).2 := by
  have hreserved : (tryReservedSector h).run w = (.ok (none, none), w) := by
    rw [tryReservedSector, bind_of_ok (run_get w)]
    dsimp only
    rw [if_pos hreserve]
    rfl
  have hways := allocUnreserved_tried hx hkept (rfl : w.files h = w.files h)
  rw [allocNextSector, bind_of_ok hreserved]
  dsimp only
  refine run_bind_cases (J := fun r w' => Kept S c n x F w' ∧ ∀ s, r = .ok s →
    ∃ st bad win, Granted S c n x F h (w.files h) s st bad win w') (fun err w1 hrun => ?_) fun s w1 hrun => ?_
  · change (allocUnreserved h none).run w = _ at hrun
    rw [hrun] at hways
    exact ⟨hways.kept, fun _ hno => by cases hno⟩
  · change (allocUnreserved h none).run w = _ at hrun
    rw [hrun] at hways
    obtain ⟨st, bad, win, hgranted⟩ := hways.granted s rfl
    have hnote := (inferInstance : Keeps (Granted S c n x F h (w.files h) s st bad win)
      (note (.alloc h s))).keeps w1 hgranted
    refine ⟨⟨st, bad, hnote.holds⟩, fun t ht => ?_⟩
    cases ht
    exact ⟨st, bad, win, hnote⟩

end Fastffs
