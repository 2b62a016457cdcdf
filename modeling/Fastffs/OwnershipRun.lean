import Fastffs.OwnershipFile
import Fastffs.Run

/-!
# Sectors are exclusive along every run

Every call of the API keeps the invariant of `Ownership`, and so does every run:
at each act of the allocator and the collector, the sector is free of other
writers, and no reservation meets another one or the compaction reserve.

The condition on a run is that every walk of `reserve_after` is clear: where it asks
about a sector of the compaction reserve, the allocation map has the sector.  In a
build without a map the walk does not come to the reserve then.  Without the
condition a reservation can take a sector of the reserve, as the run at the end shows.
-/

namespace Fastffs

open Prog

variable [Opts]

variable {h : Nat} {hs : List Nat} {c : Prop} {P : (Nat → File) → List Nat → Prop}
  {w w' : World}

/-! ## Reading -/

/-- The handle is a reader. -/
def Reads (h : Nat) (files : Nat → File) (_ : List Nat) : Prop := (files h).access = .rdonly

/-- A reader owns nothing and reserves nothing. -/
instance : ReaderInv h (Excl hs c (Reads h)) where
  ofMove {g} hg := by
    constructor
    intro w he
    have hread : (g (w.files h)).access = .rdonly := (hg _).1.trans he.handles
    have hnot : ¬ (g (w.files h)).writing := by
      rintro ⟨-, hw⟩
      rw [hread] at hw
      cases hw
    refine he.change (fun t ho => absurd ho.1 hnot) (he.reserved.shrink fun t hr => absurd hr.1 hnot) ?_
    rw [Reads, World.setFile_files, if_pos rfl]
    exact hread

omit [Opts] in
/-- A call that only reads through a handle. -/
theorem reader_exclusive {α : Type} {x : M α}
    (hx : Keeps (Excl [] False (Reads h)) x) (he : Exclusive w)
    (hacc : (w.files h).access = .rdonly) : Exclusive (x.run w).2 :=
  (hx.keeps w { he with handles := hacc }).exclusive

omit [Opts] in
/-- `fffs_read`. -/
theorem read_exclusive (size : Nat) (he : Exclusive w) : Exclusive ((read h size).run w).2 := by
  unfold read
  simp only [run_bind, run_get]
  split
  · exact he
  · next hguard =>
    simp only [not_or, not_not] at hguard
    exact reader_exclusive inferInstance he hguard.2

omit [Opts] in
/-- `fffs_seek`. -/
theorem seek_exclusive (offset : Int) (whence : Whence) (he : Exclusive w) :
    Exclusive ((seek h offset whence).run w).2 := by
  unfold seek
  simp only [run_bind, run_getFile]
  split
  · exact he
  · next hguard =>
    simp only [not_or, not_not] at hguard
    exact reader_exclusive inferInstance he hguard.2

/-! ## Names -/

instance (name : List Nor.Byte) : Keeps (Excl hs c P) (deleteFile name) := by
  unfold deleteFile
  refine Keeps.bind (k := fun resolved => ?_)
  split <;> infer_instance

/-! ## Mounting -/

omit [Opts] in
theorem validIndexHeader_count {hdr : List Nor.Byte} {i : IndexHeader}
    (h : validIndexHeader hdr = some i) : 2 ≤ i.indexSectors := by
  unfold validIndexHeader at h
  dsimp only at h
  split_ifs at h with h1 h2 h3 h4
  simp only [Option.some.injEq] at h
  subst h
  simp only [not_or, not_lt] at h3
  exact h3.1

omit [Opts] in
theorem discoverAt_count {shift off : Nat} {seq : IndexSequence}
    (h : (discoverAt shift off).run w = (.ok (some seq), w')) : 2 ≤ seq.indexSectors := by
  unfold discoverAt at h
  obtain ⟨w0, w1, -, h⟩ := bind_ok h
  split at h
  · simp at h
  · obtain ⟨hdr, w2, -, h⟩ := bind_ok h
    split at h
    · simp at h
    · next locked hlocked =>
      split at h
      · simp at h
      · obtain ⟨scan, w3, -, h⟩ := bind_ok h
        split at h
        · simp only [run_pure, Prod.mk.injEq, Except.ok.injEq, Option.some.injEq] at h
          rw [← h.1]
          exact validIndexHeader_count hlocked
        · simp at h

omit [Opts] in
theorem discoverLoop_count {fuel probe : Nat} {seq : IndexSequence}
    (h : (discoverLoop fuel probe).run w = (.ok seq, w')) : 2 ≤ seq.indexSectors := by
  induction fuel generalizing probe w with
  | zero => simp [discoverLoop] at h
  | succ fuel ih =>
    unfold discoverLoop at h
    split at h
    · simp at h
    · obtain ⟨w0, w1, -, h⟩ := bind_ok h
      split at h
      · exact ih h
      · obtain ⟨r, w2, h2, h⟩ := bind_ok h
        split at h
        · simp only [run_pure, Prod.mk.injEq, Except.ok.injEq] at h
          exact h.1 ▸ discoverAt_count h2
        · obtain ⟨r, w3, h3, h⟩ := bind_ok h
          split at h
          · simp only [run_pure, Prod.mk.injEq, Except.ok.injEq] at h
            exact h.1 ▸ discoverAt_count h3
          · exact ih h

/-- Nothing is mounted: only the acts of the past are left. -/
def Unmounted (w : World) : Prop := ∀ e ∈ w.trace, e.Ok

instance : ReadInv Unmounted := ⟨fun hw => hw⟩

omit [Opts] in
/-- A mounted file system has no open handle and no reservation. -/
theorem Unmounted.exclusive {fs : Fs} (hw : Unmounted w) (hopen : fs.openFiles = [])
    (hres : fs.compactionReserve = []) (hpos : 0 < fs.indexSectors)
    (hcount : fs.sectorCount ≤ uint16Max)
    (hcand : ∀ x ∈ fs.compactionCandidates, x.sector = 0) : Exclusive { w with fs := fs } := by
  have hno : ∀ k, k ∉ fs.openFiles := by simp [hopen]
  have hnores : ∀ s, s ∉ fs.compactionReserve := by simp [hres]
  exact {
    indexSectors_pos := hpos
    sectorCount_le := hcount
    nodup := hopen ▸ List.nodup_nil
    owned_data := fun k hk => absurd hk (hno k)
    owned_disjoint := fun k hk => absurd hk (hno k)
    reserve_nodup := hres ▸ List.nodup_nil
    reserve_data := fun s hs => absurd hs (hnores s)
    reserve_unowned := fun s hs => absurd hs (hnores s)
    reserved := ⟨fun k hk => absurd hk (hno k), fun k hk => absurd hk (hno k),
      fun k hk => absurd hk (hno k)⟩
    candidates := fun _ x hx h0 => absurd (hcand x hx) h0
    events := hw
    handles := trivial }

/-- What holds when the replay starts and what the replay keeps holds after `fffs_mount`. -/
theorem mount_reaches {I R : World → Prop} [ReadInv R] [Keeps I mountReplay] {options : MountOptions}
    (hw : R { w with fs := {} })
    (hstart : ∀ (v : World) seq, R v → 2 ≤ seq.indexSectors →
      w.dev.size / sectorSizeOf seq.sectorShift ≤ uint16Max →
      I { v with fs := mountedFs w.dev.size options seq })
    (h : (mount options).run w = (.ok (), w')) : I w' := by
  unfold mount at h
  simp only [run_bind, run_get] at h
  split at h
  · simp at h
  · simp only [unmount, run_bind, run_modifyFs] at h
    have hread := (inferInstance : Keeps R findIndexSequence).keeps _ hw
    split at h
    · next seq v hrun =>
      rw [hrun] at hread
      split at h
      · simp at h
      · next hsize =>
        simp only [not_or, not_lt] at hsize
        have hreplay := (inferInstance : Keeps I mountReplay).keeps _
          (hstart v seq hread (discoverLoop_count hrun) hsize.2)
        simp only [run_bind, run_modifyFs, run_attempt] at h
        split at h
        · simp only [run_pure, Prod.mk.injEq, true_and] at h
          exact h ▸ hreplay
        · simp [run_bind] at h
    · simp at h

instance : Keeps Exclusive (modifyFs allocMapInit) := by
  constructor
  intro w he
  simp only [run_modifyFs, allocMapInit]
  split <;> exact { he with }

instance : FrameInv Exclusive := inferInstanceAs (FrameInv (Excl [] False fun _ _ => True))

instance : Keeps Exclusive mountReplay := by
  unfold mountReplay; infer_instance

/-- `fffs_mount`. -/
theorem mount_exclusive {options : MountOptions} (hw : Unmounted w)
    (h : (mount options).run w = (.ok (), w')) : Exclusive w' := by
  refine mount_reaches (R := Unmounted) hw (fun v seq hv hidx hsize => ?_) h
  refine hv.exclusive rfl rfl (show 0 < seq.indexSectors by omega) hsize fun x hx => ?_
  change x ∈ noCandidates at hx
  rw [noCandidates, List.mem_replicate] at hx
  rw [hx.2]

/-- `fffs_unmount` and `fffs_mount`. -/
theorem remount_exclusive {options : MountOptions} (he : Exclusive w)
    (h : (remount options).run w = (.ok (), w')) : Exclusive w' := by
  unfold remount at h
  obtain ⟨_, w1, hrun1, h⟩ := bind_ok h
  obtain ⟨_, w2, hrun2, h⟩ := bind_ok h
  refine mount_exclusive ?_ h
  simp only [dropHandles, unmount, run_modifyFs, Prod.mk.injEq, true_and] at hrun1 hrun2
  subst hrun1 hrun2
  exact he.events

/-! ## Runs -/

/-- Every walk of `reserve_after` is clear, also those of this call. -/
def reservesClear (w : World) (op : Op) : Prop := Cleared (stepOp w op)

/-- One call keeps the invariant. -/
theorem stepOp_exclusive {op : Op} (he : Exclusive w) (hlegal : legalOp w op)
    (hclear : reservesClear w op) : Exclusive (stepOp w op) := by
  have hbind : ∀ {α : Type} {x : M α}, Exclusive (x.run w).2 →
      Exclusive ((do let _ ← x : M Unit).run w).2 := by
    intro α x hx
    rw [run_bind]
    rcases hr : x.run w with ⟨r, w1⟩
    rw [hr] at hx
    cases r <;> exact hx
  have hkeeps : ∀ {α : Type} {x : M α}, Keeps Exclusive x → Exclusive (x.run w).2 :=
    fun hx => hx.keeps w he
  unfold stepOp
  cases op with
  | openFile h name flags => exact openFile_exclusive name flags he hlegal hclear
  | read h size => exact hbind (read_exclusive size he)
  | seek h offset whence => exact hbind (seek_exclusive offset whence he)
  | write h src => exact write_exclusive src he hlegal hclear
  | close h => exact close_exclusive he hlegal
  | fstat h => exact hbind (hkeeps inferInstance)
  | stat name => exact hbind (hkeeps inferInstance)
  | deleteFile name =>
    exact hkeeps (inferInstanceAs (Keeps (Excl [] False fun _ _ => True) (deleteFile name)))
  | list => exact hbind (hkeeps inferInstance)
  | fsinfo refresh refreshIfNeeded estimate => exact hbind (hkeeps inferInstance)
  | gcStep =>
    exact hbind (hkeeps (inferInstanceAs (Keeps (Excl [] False fun _ _ => True) gcStepPublic)))
  | gc n =>
    exact hbind (hkeeps (inferInstanceAs (Keeps (Excl [] False fun _ _ => True) (gc n 0))))
  | remount options => exact remount_exclusive he (Prod.ext hlegal rfl)

/-- In every run whose walks of `reserve_after` are clear, every act of the allocator
and the collector respects the open writers, and the reservations are sound in every
state. -/
theorem writers_exclusive {options : MountOptions} {w0 w1 : World} (htrace : w0.trace = [])
    (hmount : (mount options).run w0 = (.ok (), w1))
    (hrun : Steps stepOp (fun w op => legalOp w op ∧ reservesClear w op) w1 w) :
    (∀ e ∈ w.trace, e.Ok) ∧ w.owners.Reserved w.fs.openFiles := by
  have h1 : Exclusive w1 := mount_exclusive (fun e he => by simp [htrace] at he) hmount
  have hw : Exclusive w := hrun.invariant (fun _ _ he h => stepOp_exclusive he h.1 h.2) h1
  exact ⟨hw.events, hw.reservedOpen⟩

instance : (e : Event) → Decidable e.Clear
  | ⟨.reserve s, fs, _⟩ =>
      inferInstanceAs (Decidable (s ∈ fs.compactionReserve → allocMapMaybeUsed fs s = true))
  | ⟨.alloc _ _, _, _⟩ | ⟨.copyTo _, _, _⟩ | ⟨.erase _, _, _⟩ | ⟨.flush _ _, _, _⟩ | ⟨.narrow _, _, _⟩
  | ⟨.sample _, _, _⟩ => inferInstanceAs (Decidable True)

instance (w : World) (op : Op) : Decidable (reservesClear w op) :=
  inferInstanceAs (Decidable (∀ e ∈ (stepOp w op).trace, e.Clear))

/-- The default build without an allocation map. -/
@[reducible] def noMapOpts : Opts := { defaultOpts with allocMapMode := .none }

/-- Two writers at once, an overwrite, a delete, a collection and a third writer.  No
walk comes to the compaction reserve, so the run needs no map. -/
def clearRun : List Op :=
  [.openFile 0 [0x61#8] writeFlags, .write 0 (List.replicate 300 0#8),
    .openFile 1 [0x62#8] writeFlags, .write 1 (List.replicate 40 1#8), .close 0,
    .openFile 0 [0x61#8] writeFlags, .write 0 (List.replicate 20 2#8), .gcStep, .close 0, .close 1,
    .deleteFile [0x62#8], .gc 4, .openFile 2 [0x63#8] writeFlags, .write 2 (List.replicate 60 3#8)]

/-- After a remount a walk comes to the compaction reserve, and the map stops it. -/
def mappedRun : List Op :=
  clearRun ++ [.close 2, .remount smallMount, .openFile 0 [0x64#8] writeFlags,
    .write 0 (List.replicate 800 3#8)]

/-- The world after the calls on a small formatted chip. -/
def smallRun (o : Opts) (ops : List Op) : World :=
  ops.foldl (@stepOp o) ((@mount o smallMount).run (formattedChip 14 2)).2

omit [Opts] in
theorem writers_exclusive_mappedRun :
    ((∀ e ∈ (smallRun defaultOpts mappedRun).trace, e.Ok) ∧
      (smallRun defaultOpts mappedRun).owners.Reserved (smallRun defaultOpts mappedRun).fs.openFiles) ∧
    ((∀ e ∈ (smallRun noMapOpts clearRun).trace, e.Ok) ∧
      (smallRun noMapOpts clearRun).owners.Reserved (smallRun noMapOpts clearRun).fs.openFiles) := by
  constructor
  · have hok : (@mount defaultOpts smallMount).run (formattedChip 14 2) =
        (.ok (), ((@mount defaultOpts smallMount).run (formattedChip 14 2)).2) :=
      run_eq_of_isOk (by decide +kernel)
    have hallowed : Steps.Allowed (@stepOp defaultOpts)
        (fun w op => @legalOp defaultOpts w op ∧ @reservesClear defaultOpts w op) mappedRun
        ((@mount defaultOpts smallMount).run (formattedChip 14 2)).2 := by
      decide +kernel
    exact @writers_exclusive defaultOpts _ smallMount (formattedChip 14 2) _
      (List.isEmpty_iff.mp (by decide +kernel)) hok (Steps.ofAllowed _ _ hallowed)
  · have hok : (@mount noMapOpts smallMount).run (formattedChip 14 2) =
        (.ok (), ((@mount noMapOpts smallMount).run (formattedChip 14 2)).2) :=
      run_eq_of_isOk (by decide +kernel)
    have hallowed : Steps.Allowed (@stepOp noMapOpts)
        (fun w op => @legalOp noMapOpts w op ∧ @reservesClear noMapOpts w op) clearRun
        ((@mount noMapOpts smallMount).run (formattedChip 14 2)).2 := by
      decide +kernel
    exact @writers_exclusive noMapOpts _ smallMount (formattedChip 14 2) _
      (List.isEmpty_iff.mp (by decide +kernel)) hok (Steps.ofAllowed _ _ hallowed)

/-- A reservation meets the compaction reserve. -/
def reservationMeetsReserve (w : World) : Bool :=
  w.fs.openFiles.any fun h =>
    decide ((w.files h).closed = false ∧ (w.files h).access = .wronly) &&
      w.fs.compactionReserve.any fun s =>
        decide ((w.files h).reserveFirst ≤ s ∧ s < (w.files h).reserveFirst + (w.files h).reserveCount)

omit [Opts] in
theorem not_reserved_of_meets (h : reservationMeetsReserve w = true) :
    ¬ w.owners.Reserved w.fs.openFiles := by
  simp only [reservationMeetsReserve, List.any_eq_true, Bool.and_eq_true, decide_eq_true_eq] at h
  obtain ⟨k, hk, hwr, s, hs, hr⟩ := h
  exact fun hres => hres.compaction k hk s ⟨hwr, hr⟩ hs

/-- The delete of a file in a sector of the compaction reserve clears the bit of
the sector, and the next blank sector before it is given to a writer that then
reserves it. -/
def deleteInReserveRun : List Op :=
  [.openFile 0 [0x61#8] writeFlags, .write 0 (List.replicate 30 0x61#8), .close 0,
    .remount smallMount, .openFile 0 [0x62#8] writeFlags, .write 0 (List.replicate 200 0x62#8),
    .close 0, .remount smallMount, .openFile 0 [0x63#8] writeFlags, .deleteFile [0x61#8],
    .write 0 (List.replicate 300 0x63#8)]

omit [Opts] in
theorem writers_not_exclusive :
    ¬ ∀ (o : Opts) (options : MountOptions) (w0 w1 w : World), w0.trace = [] →
      (@mount o options).run w0 = (.ok (), w1) → Steps (@stepOp o) (@legalOp o) w1 w →
      (∀ e ∈ w.trace, e.Ok) ∧ w.owners.Reserved w.fs.openFiles := by
  intro hall
  let w1 := ((@mount defaultOpts smallMount).run (formattedChip 9 2)).2
  have hok : (@mount defaultOpts smallMount).run (formattedChip 9 2) = (.ok (), w1) :=
    run_eq_of_isOk (by decide +kernel)
  have hallowed : Steps.Allowed (@stepOp defaultOpts) (@legalOp defaultOpts) deleteInReserveRun w1 := by
    decide +kernel
  have hmeets : reservationMeetsReserve (deleteInReserveRun.foldl (@stepOp defaultOpts) w1) = true := by
    decide +kernel
  exact not_reserved_of_meets hmeets
    (hall defaultOpts smallMount _ w1 _ (List.isEmpty_iff.mp (by decide +kernel)) hok
      (Steps.ofAllowed _ _ hallowed)).2

end Fastffs
