import Fastffs.IndexAreaFile

/-!
# The history of the index

The calls of the file system write the index area only through
`fffs_append_index_record` and `fffs_mount`.  A history lists these calls, each with the
world it started from, and every state of a run has one (`run_history`).  What holds of
the index in every state of a run is shown over histories.
-/

namespace Fastffs

open Prog
open Nor (Byte)

variable [Opts]

/-- A call that writes the index area, with the world it starts from. -/
inductive IndexEvent where
  | append (w : World) (slot head : Nat)
  | mount (w : World) (options : MountOptions)

/-- The index area of `w` comes from that of `v` by the calls in the list, in their order.
What is done between them leaves the index area as it is. -/
inductive History (v : World) : List IndexEvent → World → Prop where
  | start : History v [] v
  | data {es : List IndexEvent} {w w' : World} :
      History v es w → SameArea (w.fs.indexSectors * w.fs.sectorSize) w w' → History v es w'
  | append {es : List IndexEvent} {w : World} {slot head : Nat} :
      History v es w → Written w.fs.indexSectors w.fs.sectorCount slot head →
      History v (es ++ [.append w slot head]) ((appendIndexRecord slot head).run w).2
  | mount {es : List IndexEvent} {w w' : World} {options : MountOptions} :
      History v es w → (remount options).run w = (.ok (), w') →
      History v (es ++ [.mount w options]) w'

/-- The appends of records, one after the other. -/
def appendAll : List IndexRecord → World → World
  | [], w => w
  | r :: rs, w => appendAll rs ((appendIndexRecord r.slot r.head).run w).2

/-- The events of these appends. -/
def appendEvents : List IndexRecord → World → List IndexEvent
  | [], _ => []
  | r :: rs, w => .append w r.slot r.head :: appendEvents rs ((appendIndexRecord r.slot r.head).run w).2

theorem length_appendEvents (rs : List IndexRecord) (w : World) : (appendEvents rs w).length = rs.length := by
  induction rs generalizing w with
  | nil => rfl
  | cons r rs ih => exact congrArg (· + 1) (ih _)

theorem History.appends {v w : World} {es : List IndexEvent} {rs : List IndexRecord} (h : History v es w)
    (hwritten : ∀ r ∈ rs, Written w.fs.indexSectors w.fs.sectorCount r.slot r.head) :
    History v (es ++ appendEvents rs w) (appendAll rs w) := by
  induction rs generalizing w es with
  | nil => exact (List.append_nil es).symm ▸ h
  | cons r rs ih =>
    have hsame := (inferInstance : Keeps (SameCaller w) (appendIndexRecord r.slot r.head)).keeps w (.refl w)
    have hrest := ih (h.append (hwritten r List.mem_cons_self)) fun r' hr' => by
      rw [hsame.indexSectors, hsame.sectorCount]
      exact hwritten r' (List.mem_cons_of_mem _ hr')
    rw [List.append_assoc] at hrest
    exact hrest

/-- The file system of `u` on the flash of `w`. -/
def World.onFlash (u w : World) : World := { u with dev := w.dev, trace := w.trace }

/-- A mount sees the flash only.  A state with the index area of `u` has the history of `u` when it is
mounted. -/
theorem History.remounted {v u w w' : World} {es : List IndexEvent} {o : MountOptions} (h : History v es u)
    (hplan : w.dev.plan = []) (hsize : w.dev.mem.size = u.dev.mem.size)
    (hgranule : w.dev.programGranule = u.dev.programGranule)
    (harea : Nor.read w.dev.mem 0 (u.fs.indexSectors * u.fs.sectorSize) =
      Nor.read u.dev.mem 0 (u.fs.indexSectors * u.fs.sectorSize))
    (hrun : (remount o).run w = (.ok (), w')) : History v (es ++ [.mount (u.onFlash w) o]) w' := by
  have hsame : SameArea (u.fs.indexSectors * u.fs.sectorSize) u (u.onFlash w) := by
    refine ⟨fun _ => hplan, hsize, hgranule, fun a ha => ?_, rfl⟩
    have hbyte := congrArg (List.getD · a Nor.blank) harea
    rw [Nor.getD_read _ _ _ _ _ ha, Nor.getD_read _ _ _ _ _ ha, Nat.zero_add] at hbyte
    exact hbyte
  exact (h.data hsame).mount hrun

/-- The world has a history, and its geometry is the given one. -/
structure Told (v : World) (n size c : Nat) (w : World) : Prop where
  history : ∃ es, History v es w
  indexSectors : w.fs.indexSectors = n
  sectorSize : w.fs.sectorSize = size
  sectorCount : w.fs.sectorCount = c

variable {v w w' : World} {n size c : Nat}

omit [Opts] in
theorem indexFs_view {fs fs' : Fs} (h : indexFs fs' = indexFs fs) {α : Type} (view : Fs → α)
    (hview : ∀ fs, view (indexFs fs) = view fs) : view fs' = view fs := by
  rw [← hview fs', h, hview]

instance : LogInv n size c (Told v n size c) where
  ofArea := by
    intro w w' h hw
    obtain ⟨es, hes⟩ := hw.history
    refine ⟨⟨es, hes.data ?_⟩, ?_, ?_, ?_⟩
    · rw [hw.indexSectors, hw.sectorSize]
      exact h
    · rw [indexFs_view h.index Fs.indexSectors fun _ => rfl]
      exact hw.indexSectors
    · rw [indexFs_view h.index Fs.sectorSize fun _ => rfl]
      exact hw.sectorSize
    · rw [indexFs_view h.index Fs.sectorCount fun _ => rfl]
      exact hw.sectorCount
  append := by
    intro w slot head h hw
    obtain ⟨es, hes⟩ := hw.history
    have hsame := (inferInstance : Keeps (SameCaller w) (appendIndexRecord slot head)).keeps w (.refl w)
    refine ⟨⟨_, hes.append ?_⟩, hsame.indexSectors.trans hw.indexSectors,
      hsame.sectorSize.trans hw.sectorSize, hsame.sectorCount.trans hw.sectorCount⟩
    rw [hw.indexSectors, hw.sectorCount]
    exact h

/-- A file system that has just been mounted, with no handle in use. -/
structure FreshMount (w : World) : Prop where
  files : w.files = fun _ => {}
  openFiles : w.fs.openFiles = []
  size_ge : 256 ≤ w.fs.sectorSize
  count_le : w.fs.sectorCount ≤ uint16Max

/-- Every state of a run of a mounted file system. -/
def Running (v w : World) : Prop :=
  ∃ n size c, Between n size c (Told v n size c) w

omit [Opts] in
/-- A fresh mount stands between two calls, under any invariant that holds of it. -/
theorem FreshMount.between {J : World → Prop} (hw : FreshMount w) (hJ : J w) :
    Between w.fs.indexSectors w.fs.sectorSize w.fs.sectorCount J w := by
  have hopen := hw.openFiles
  refine ⟨⟨[], [], fun _ => .rdonly⟩, rfl, ?_⟩
  exact {
    inv := hJ
    indexSectors := rfl
    sectorSize := rfl
    sectorCount := rfl
    size_ge := hw.size_ge
    count_le := hw.count_le
    opened := hopen
    access := nofun
    slots := nofun
    writers := nofun
    reserved := by
      intro h
      rw [hw.files]
      exact fun hne => absurd rfl hne }

theorem FreshMount.running (hw : FreshMount w) (hes : ∃ es, History v es w) : Running v w :=
  ⟨w.fs.indexSectors, w.fs.sectorSize, w.fs.sectorCount, hw.between ⟨hes, rfl, rfl, rfl⟩⟩

/-- A call other than a mount. -/
theorem Running.step {op : Op} (hw : Running v w) (hop : legalOp w op) (hno : ∀ o, op ≠ .remount o) :
    Running v (stepOp w op) := by
  obtain ⟨n, size, c, hb⟩ := hw
  exact ⟨n, size, c, hb.step hop hno⟩

theorem Running.history (hw : Running v w) : ∃ es, History v es w := by
  obtain ⟨n, size, c, L, -, hL⟩ := hw
  exact hL.inv.history

/-! ## Mounting -/

section Mount

variable {files : Nat → File} {o : MountOptions}

instance : Keeps (SameCaller v) indexCompactOldest := by
  unfold indexCompactOldest; infer_instance

instance : Keeps (SameCaller v) indexFinishInterruptedCompaction := by
  unfold indexFinishInterruptedCompaction; infer_instance

instance : Keeps (SameCaller v) (modifyFs allocMapInit) := by
  constructor
  intro w hw
  rw [run_modifyFs, allocMapInit]
  split <;> exact { hw with }

/-- Moving the end of the log. -/
instance (f : Fs → Nat) : Keeps (SameCaller v) (modifyFs fun fs => { fs with nextIndexOffset := f fs }) :=
  ⟨fun _ h => { h with }⟩

instance (recOff : Nat) (terminal : Bool) :
    Keeps (SameCaller v) (clobberOrRejectActiveTail recOff terminal) := by
  unfold clobberOrRejectActiveTail; infer_instance

instance (active : Bool) (off nread endOff : Nat) (chunk : List Byte) (fuel pos tail : Nat) :
    Keeps (SameCaller v) (replayChunk active off nread endOff chunk fuel pos tail) := by
  induction fuel generalizing pos tail with
  | zero => unfold replayChunk; infer_instance
  | succ fuel ih => unfold replayChunk; infer_instance

instance (active : Bool) (endOff chunkSize fuel off tail : Nat) :
    Keeps (SameCaller v) (replaySector active endOff chunkSize fuel off tail) := by
  induction fuel generalizing off tail with
  | zero => unfold replaySector; infer_instance
  | succ fuel ih => unfold replaySector; infer_instance

instance (n sector tail : Nat) : Keeps (SameCaller v) (replaySectors n sector tail) := by
  induction n generalizing sector tail with
  | zero => unfold replaySectors; infer_instance
  | succ n ih => unfold replaySectors; infer_instance

instance (sector : Nat) : Keeps (SameCaller v) (recoverSectorSerial sector) := by
  unfold recoverSectorSerial
  refine Keeps.bind (k := fun fs => Keeps.bind (k := fun r => ?_))
  have hset : ∀ f : Fs → Nat, Keeps (SameCaller v) (modifyFs fun fs => { fs with nextSectorSerial := f fs }) :=
    fun _ => ⟨fun _ h => { h with }⟩
  split <;> infer_instance

instance (n sector : Nat) : Keeps (SameCaller v) (recoverAllocatorLoop n sector) := by
  induction n generalizing sector with
  | zero => unfold recoverAllocatorLoop; infer_instance
  | succ n ih => unfold recoverAllocatorLoop; infer_instance

instance (head : Nat) : Keeps (SameCaller v) (recoverAllocatorHint head) := by
  unfold recoverAllocatorHint
  exact Keeps.bind (j := ⟨fun _ h => { h with }⟩)

instance : Keeps (SameCaller v) mountReplay := by
  unfold mountReplay replayIndex; infer_instance

/-- What a successful `fffs_mount` settles for the rest of a run. -/
structure Settled (o : MountOptions) (w : World) : Prop where
  openFiles : w.fs.openFiles = []
  size_ge : 256 ≤ w.fs.sectorSize
  count_le : w.fs.sectorCount ≤ uint16Max
  options : mountOptionsOk w o
  scratchSize : w.fs.scratchSize = o.scratchSize
  tableSize : w.fs.indexHashTableSize = o.indexHashTableSize
  strict : w.fs.strict = o.strict

omit [Opts] in
theorem validBackend_congr {d d' : Device} (hsize : d'.size = d.size)
    (hgranule : d'.programGranule = d.programGranule) : validBackend d' = validBackend d := by
  rw [validBackend, validBackend, hsize, hgranule]

/-- What a successful `fffs_mount` starts its replay from, and what the replay leaves of it. -/
theorem mount_same (h : (Fastffs.mount o).run w = (.ok (), w')) :
    ∃ seq w1, mountOptionsOk w o ∧ SameCaller { w with fs := {} } w1 ∧
      w.dev.size / sectorSizeOf seq.sectorShift ≤ uint16Max ∧
      SameCaller { w1 with fs := mountedFs w.dev.size o seq } w' := by
  rw [Fastffs.mount, bind_of_ok (run_get w)] at h
  split at h
  · cases h
  next hguard =>
  rw [unmount, bind_of_ok (run_modifyFs _ w)] at h
  obtain ⟨seq, w1, hfind, h⟩ := bind_ok h
  have hread := (inferInstance : Keeps (SameCaller { w with fs := {} }) findIndexSequence).keeps _ (.refl _)
  rw [hfind] at hread
  dsimp only at h
  split at h
  · cases h
  next hsize =>
  rw [bind_of_ok (run_modifyFs _ w1)] at h
  obtain ⟨r, w2, hreplay, h⟩ := bind_ok h
  rw [run_attempt] at hreplay
  cases r with
  | error e => cases h
  | ok u =>
    have hw2 : w' = w2 := by
      cases h
      rfl
    have hworld : (mountReplay.run { w1 with fs := mountedFs w.dev.size o seq }).2 = w' :=
      (congrArg Prod.snd hreplay).trans hw2.symm
    rw [not_or, not_or, not_lt, Bool.not_eq_false, Bool.not_eq_false] at hguard
    rw [not_or, not_not, not_lt] at hsize
    have hsame := (inferInstance : Keeps (SameCaller { w1 with fs := mountedFs w.dev.size o seq })
      mountReplay).keeps _ (.refl _)
    rw [hworld] at hsame
    exact ⟨seq, w1, hguard, hread, hsize.2, hsame⟩

/-- `fffs_mount`. -/
theorem mount_settled (h : (Fastffs.mount o).run w = (.ok (), w')) :
    Settled o w' ∧ mountOptionsOk w o ∧ w'.files = w.files := by
  obtain ⟨seq, w1, hguard, hread, hsize, hsame⟩ := mount_same h
  refine ⟨⟨hsame.openFiles, ?_, ?_, ⟨?_, hguard.2⟩, hsame.scratchSize, hsame.tableSize, hsame.strict⟩,
    hguard, hsame.files.trans hread.files⟩
  · rw [hsame.sectorSize]
    exact sectorSizeOf_ge _
  · rw [hsame.sectorCount]
    exact hsize
  · rw [validBackend_congr (hsame.size.trans hread.size) (hsame.granule.trans hread.granule)]
    exact hguard.1

/-- The sectors of a mounted file system lie on the flash. -/
theorem mount_sectors (h : (Fastffs.mount o).run w = (.ok (), w')) :
    w'.fs.sectorCount * w'.fs.sectorSize ≤ w'.dev.size := by
  obtain ⟨seq, w1, -, hread, -, hsame⟩ := mount_same h
  rw [hsame.sectorCount, hsame.sectorSize, hsame.size]
  have hsize : w1.dev.size = w.dev.size := hread.size
  change w.dev.size / sectorSizeOf seq.sectorShift * sectorSizeOf seq.sectorShift ≤ w1.dev.size
  rw [hsize]
  exact Nat.div_mul_le_self _ _

end Mount

/-- `fffs_unmount` and `fffs_mount`: the mount does not see the file system it replaces. -/
theorem remount_run (o : MountOptions) (w : World) :
    (remount o).run w = (mount o).run { w with fs := {}, files := fun _ => {} } := rfl

theorem remount_fresh {o : MountOptions} (h : (remount o).run w = (.ok (), w')) : FreshMount w' := by
  obtain ⟨hset, -, hfiles⟩ := mount_settled h
  exact ⟨hfiles, hset.openFiles, hset.size_ge, hset.count_le⟩

/-- Every state of a run has a history. -/
theorem run_history {o : MountOptions} (hmount : (remount o).run v = (.ok (), w'))
    (hrun : Steps stepOp legalOp w' w) : ∃ es, History w' es w := by
  refine Running.history (hrun.invariant (fun u op hu hop => ?_) ((remount_fresh hmount).running ⟨[], .start⟩))
  by_cases hno : ∀ o, op ≠ .remount o
  · exact hu.step hop hno
  · rw [not_forall] at hno
    obtain ⟨o, hop'⟩ := hno
    rw [not_not] at hop'
    subst hop'
    have hok : (remount o).run u = (.ok (), stepOp u (.remount o)) := Prod.ext hop rfl
    obtain ⟨es, hes⟩ := hu.history
    exact (remount_fresh hok).running ⟨_, hes.mount hok⟩

end Fastffs
