import Fastffs.Append
import Fastffs.RotationFaults

/-!
# Going on after a failed rotation

`rotate_index_begin` changes the file system before the header of the new sector is in
place.  A rotation that fails after it leaves a file system whose active sector is not in
the ring on the flash, or a ring with no free sector.  `settled` rules both out, and then
the file system is as good as before: the appends that follow are in the log of the next
mount (`failed_rotation_harmless`).
-/

namespace Fastffs

open Prog
open Nor (Mem Byte blank)

/-! ## The file system after a failed rotation -/

/-- The header of the active sector is in place, and the ring leaves a sector free. -/
def settled (w : World) : Prop :=
  headerAt w.dev.mem (w.fs.activeIndexSector * w.fs.sectorSize) ≠ none ∧
    w.fs.indexSequenceCount < w.fs.indexSectors

instance (w : World) : Decidable (settled w) := by
  rw [settled]
  infer_instance

variable [Opts] {w u : World} {logs : List (List IndexRecord)} {plan : List Fault} {e : Status}

omit [Opts] in
theorem indexCompactOldestFinish_fails {v : World} {sector : Nat}
    (h : (indexCompactOldestFinish sector).run v = (.error e, u)) : u.fs = v.fs := by
  rw [indexCompactOldestFinish, tombstoneIndexSector] at h
  rcases bind_error h with htomb | ⟨_, v1, -, hmod⟩
  · rw [bind_of_ok (run_getFs v)] at htomb
    obtain ⟨m, plan, hm, -⟩ := programAligned_tears v (sector * v.fs.sectorSize + 7)
      [indexFlagsValid &&& ~~~0x40#8]
    rw [htomb] at hm
    dsimp only at hm
    rw [hm]
    rfl
  · cases hmod

/-- A compaction that fails leaves no free sector. -/
theorem IndexState.compact_fails (h : IndexState w logs)
    (hfull : w.fs.indexSequenceCount + 1 = w.fs.indexSectors)
    (hrun : (do
      let source ← indexCompactOldestCopy
      rotateIndexCommit
      indexCompactOldestFinish source : M Unit).run ((rotatedWorld w).withPlan plan) = (.error e, u)) :
    ¬ settled u := by
  obtain ⟨-, hr, -⟩ := h.begun
  have hcount := rotatedWorld_count h.ring.count_lt
  obtain ⟨v, rs0, mid, cp, rfl, hv⟩ := h.copied hfull
  -- the count of the ring stays what the begin of the rotation has made it
  have hno : ∀ {next}, u.fs = { (rotatedWorld w).fs with nextIndexOffset := next } → ¬ settled u := by
    rintro next hfs ⟨-, hlt⟩
    rw [hfs] at hlt
    change (rotatedWorld w).fs.indexSequenceCount < w.fs.indexSectors at hlt
    omega
  rcases bind_error hrun with hcopy | ⟨source, v1, hcopy, hrest⟩
  · have hstop := indexCompactOldestCopy_stops (v := (rotatedWorld w).withPlan plan) { hr with }
      (hcount.trans hfull) hcopy
    exact hno hstop.fs
  · have hplan : (rotatedWorld w).dev.plan = [] := h.works.plan
    obtain ⟨-, hv1⟩ := Honest.run_eq hplan hv.run hcopy
    have hA : v.fs.activeIndexSector = nextIndexSector w.fs w.fs.activeIndexSector := by rw [hv.fs]; rfl
    have hS : v.fs.sectorSize = w.fs.sectorSize := by rw [hv.fs]; rfl
    have hsame : SameOutside (nextIndexSector w.fs w.fs.activeIndexSector * w.fs.sectorSize)
        ((nextIndexSector w.fs w.fs.activeIndexSector + 1) * w.fs.sectorSize) w.dev.mem v.dev.mem := by
      have hout := hv.outside
      rw [indexSectorBegin, hA, hS] at hout
      exact rotatedWorld_outside.trans (hout.mono (Nat.le_add_right _ _) le_rfl)
    rw [hv1] at hrest
    obtain ⟨u', plan', hu', hfs', -⟩ : ∃ (u' : World) (plan' : List Fault),
      (rotateIndexCommit.run (v.withPlan v1.dev.plan)).2 = u'.withPlan plan' ∧ u'.fs = v.fs ∧ _ :=
        rotateIndexCommit_recovers hv.ring hA hS hsame
    rcases bind_error hrest with hcommit | ⟨_, v2, hcommit, hfinish⟩
    · rw [hcommit] at hu'
      have hfs : u.fs = (u'.withPlan plan').fs := congrArg World.fs hu'
      exact hno (hfs.trans (hfs'.trans hv.fs))
    · rw [hcommit] at hu'
      have hfs : v2.fs = (u'.withPlan plan').fs := congrArg World.fs hu'
      exact hno ((indexCompactOldestFinish_fails hfinish).trans (hfs.trans (hfs'.trans hv.fs)))

/-- A failed rotation that leaves the file system settled has done no harm. -/
theorem IndexState.rotateIndex_fails (h : IndexState w logs)
    (hrun : rotateIndex.run (w.withPlan plan) = (.error e, u)) (hs : settled u) :
    ∃ logs', IndexState (u.withPlan []) logs' ∧ logMap logs'.flatten = logMap logs.flatten ∧
      SameCache w (u.withPlan []) := by
  obtain ⟨hbegin, hr, -⟩ := h.begun
  have hcount := rotatedWorld_count h.ring.count_lt
  have hlt := h.ring.count_lt
  rw [rotateIndex] at hrun
  rcases bind_error hrun with hrun0 | ⟨_, v0, hrun0, hrest⟩
  · -- the erase has failed
    have hun := h.begin_uncommitted hrun0
    obtain ⟨-, hfs, hgranule⟩ := rotateIndexBegin_stops hrun0
    obtain ⟨hstate, hsame⟩ := h.kept (u := u.withPlan []) (hun.keepsIndex h) hfs rfl hgranule
    exact ⟨logs, hstate, rfl, hsame⟩
  · obtain ⟨-, hv0⟩ := Honest.run_eq h.works.plan hbegin hrun0
    rw [hv0, bind_of_ok (run_getFs _)] at hrest
    by_cases hfull : w.fs.indexSequenceCount + 1 = w.fs.indexSectors
    · rw [if_pos (show ((rotatedWorld w).withPlan v0.dev.plan).fs.indexSequenceCount =
        ((rotatedWorld w).withPlan v0.dev.plan).fs.indexSectors from hcount.trans hfull)] at hrest
      exact absurd hs (h.compact_fails hfull hrest)
    · rw [if_neg (show ¬ ((rotatedWorld w).withPlan v0.dev.plan).fs.indexSequenceCount =
        ((rotatedWorld w).withPlan v0.dev.plan).fs.indexSectors from
          fun heq => hfull (hcount.symm.trans heq))] at hrest
      obtain ⟨-, hstate, hsame⟩ := h.rotate_spare (by omega)
      obtain ⟨u', plan', hu', hfs', hcases⟩ := @rotateIndexCommit_recovers _ _ v0.dev.plan hr rfl
        rfl rotatedWorld_outside
      rw [hrest] at hu' hcases
      dsimp only at hu'
      rcases hcases with rfl | ⟨-, hun⟩
      · rw [hu']
        refine ⟨_, hstate, ?_, hsame⟩
        rw [List.flatten_append, List.flatten_singleton, List.append_nil]
      · refine absurd ?_ hs.1
        rw [hu']
        change headerAt u'.dev.mem (u'.fs.activeIndexSector * u'.fs.sectorSize) = none
        rw [hfs']
        exact hun.header

/-! ## Appends and their acknowledgements -/

/-- The head that the index gives a slot, `0` for none. -/
def slotMap (w : World) (slot : Nat) : Nat :=
  match slotHead w slot with
  | .ok (some head) => head
  | _ => 0

theorem RunState.slotMap_eq (h : RunState w logs) : slotMap w = logMap logs.flatten := by
  funext slot
  by_cases hslot : slot = 0
  · rw [slotMap, hslot, h.slotHead_zero, logMap_zero h.clean_slot]
    split
    · next hhead => split at hhead <;> cases hhead
    · rfl
  · rw [slotMap, h.slotHead_of_ne hslot, headOf]
    by_cases hzero : logMap logs.flatten slot = 0
    · rw [if_pos hzero, hzero]
    · rw [if_neg hzero]

theorem IndexState.slotMap_eq (h : IndexState w logs) : slotMap w = logMap logs.flatten :=
  h.running.slotMap_eq

/-- A call of `fffs_append_index_record`, with the faults of the device in it. -/
structure AppendCall where
  record : IndexRecord
  plan : List Fault := []

/-- A file system with what its caller knows: the head of the last append of each slot that
has returned `FFFS_OK`, and the appends of the slot that have failed since. -/
structure Session where
  world : World
  acked : Nat → Nat
  failed : List IndexRecord

/-- One call of `fffs_append_index_record`. -/
def appendStep (s : Session) (c : AppendCall) : Session :=
  match (appendIndexRecord c.record.slot c.record.head).run (s.world.withPlan c.plan) with
  | (.ok _, w) =>
      { world := w.withPlan []
        acked := Function.update s.acked c.record.slot c.record.head
        failed := s.failed.filter fun r => r.slot ≠ c.record.slot }
  | (.error _, w) =>
      { world := w.withPlan []
        acked := s.acked
        failed := c.record :: s.failed }

/-- A call on a device that works, of a record that the cache can take. -/
def appendWorks (s : Session) (c : AppendCall) : Prop :=
  c.plan = [] ∧ Appendable s.world c.record ∧ tableRoom s.world c.record

/-- The log of the file system of a session is what has been acknowledged. -/
def Session.Logged (w : World) (s : Session) : Prop :=
  ∃ logs, IndexState s.world logs ∧ logMap logs.flatten = s.acked ∧ SameSetup w s.world

/-- A call on a device that works. -/
theorem Session.Logged.step {s : Session} {c : AppendCall} (h : s.Logged w) (hc : appendWorks s c) :
    (appendStep s c).Logged w := by
  obtain ⟨logs, hs, hmap, hsame⟩ := h
  obtain ⟨hplan, happ, hroom⟩ := hc
  obtain ⟨w', logs', hw', hsame', hrun⟩ := hs.append_run happ hroom
  rw [appendStep, hplan, World.withPlan_nil hs.works.plan]
  have hw0 : w'.withPlan [] = w' := World.withPlan_nil hw'.works.plan
  rcases hrun with ⟨hrun, hmap'⟩ | ⟨hrun, hmap'⟩
  · rw [hrun]
    refine ⟨logs', ?_, hmap'.trans (by rw [hmap]), ?_⟩
    · dsimp only
      rw [hw0]
      exact hw'
    · dsimp only
      rw [hw0]
      exact hsame.trans hsame'
  · rw [hrun]
    refine ⟨logs', ?_, hmap'.trans hmap, ?_⟩
    · dsimp only
      rw [hw0]
      exact hw'
    · dsimp only
      rw [hw0]
      exact hsame.trans hsame'

omit [Opts] in
theorem SameSetup.mountOptionsOk [Opts] {o : MountOptions} (h : SameSetup w u)
    (hok : Fastffs.mountOptionsOk w o) : Fastffs.mountOptionsOk u o := by
  obtain ⟨h1, h2, h3⟩ := hok
  refine ⟨?_, h2, h3⟩
  have hsize : u.dev.size = w.dev.size := h.size
  rw [validBackend] at h1 ⊢
  rw [hsize, h.granule]
  exact h1

/-- A mount finds what has been acknowledged. -/
theorem Session.Logged.mount {s : Session} {o : MountOptions} (h : s.Logged w) (hok : mountOptionsOk w o)
    (htable : o.indexHashTableSize = w.fs.indexHashTableSize)
    (hno : noEarlierSequence s.world.dev.mem s.world.fs.sectorShift) :
    ∃ w', (mount o).run s.world = (.ok (), w') ∧ slotMap w' = s.acked := by
  obtain ⟨logs, hs, hmap, hsame⟩ := h
  have hfits : cacheFits o.indexHashTableSize logs.flatten := by
    rw [htable, ← hsame.tableSize]
    exact hs.fits
  obtain ⟨w', hrun, hw'⟩ := hs.mount_run hs.works.plan rfl (hs.restores hs.ring.keepsIndex hno)
    (hsame.mountOptionsOk hok) hfits
  exact ⟨w', hrun, hw'.slotMap_eq.trans hmap⟩

/-- A failed rotation does no harm.  A mount restores the map, if no other sector size
leads to a sequence.  And if the failure leaves the file system settled, the appends that
are acknowledged later are in the map of the next mount, with all the others. -/
theorem failed_rotation_harmless {o : MountOptions} (h : IndexState w logs) (hok : mountOptionsOk w o)
    (htable : o.indexHashTableSize = w.fs.indexHashTableSize)
    (hfail : rotateIndex.run (w.withPlan plan) = (.error e, u)) :
    (noEarlierSequence (afterRotation w plan).dev.mem w.fs.sectorShift →
      ∃ w', (mount o).run (afterRotation w plan) = (.ok (), w') ∧ slotMap w' = slotMap w) ∧
    (settled u → ∀ s, Steps appendStep appendWorks ⟨u.withPlan [], slotMap w, []⟩ s →
      noEarlierSequence s.world.dev.mem s.world.fs.sectorShift →
      ∃ w', (mount o).run s.world = (.ok (), w') ∧ slotMap w' = s.acked) := by
  constructor
  · intro hno
    have hrecovers : Recovers w logs (afterRotation w plan).dev.mem := h.rotateIndex_recovers plan hno
    obtain ⟨w', logs', hrun, hw', hmap⟩ := hrecovers.mount rfl rfl hok (htable ▸ h.fits)
    exact ⟨w', hrun, hw'.slotMap_eq.trans (hmap.trans h.slotMap_eq.symm)⟩
  · intro hs s hrun hno
    obtain ⟨logs', hstate, hmap, hsame⟩ := h.rotateIndex_fails hfail hs
    have hstart : Session.Logged w ⟨u.withPlan [], slotMap w, []⟩ :=
      ⟨logs', hstate, hmap.trans h.slotMap_eq.symm, hsame.setup⟩
    exact (hrun.invariant (fun t c ht hc => ht.step hc) hstart).mount hok htable hno

/-- The delete of the file in `storedFile`. -/
def deleteRecord : IndexRecord := ⟨52512, 0⟩

/-- A device whose call after `k` others fails. -/
def failAfter (k : Nat) : List Fault := List.replicate k .pass ++ [.fail (fun _ => blank) true]

/-- A rotation of `storedFile` with a failed call. -/
def failedRotation (k : Nat) : World :=
  ((@rotateIndex noCacheOpts).run ((storedFile [1#8]).withPlan (failAfter k))).2

omit [Opts] in
theorem run_eq_of_error {x : M Unit} {v : World} (h : (x.run v).1 = .error e) :
    x.run v = (.error e, (x.run v).2) := Prod.ext h rfl

omit [Opts] in
theorem failedRotation_run {k : Nat} (h : ((@rotateIndex noCacheOpts).run
    ((storedFile [1#8]).withPlan (failAfter k))).1 = .error .io) :
    (@rotateIndex noCacheOpts).run ((storedFile [1#8]).withPlan (failAfter k)) =
      (.error .io, failedRotation k) := by
  rw [failedRotation]
  exact run_eq_of_error h

/-- A delete after it. -/
def deleteAfterFailure (k : Nat) : Session :=
  @appendStep noCacheOpts ⟨(failedRotation k).withPlan [], @slotMap noCacheOpts (storedFile [1#8]), []⟩
    { record := deleteRecord }

omit [Opts] in
theorem deleteAfterFailure_steps (k : Nat) : Steps (@appendStep noCacheOpts) (@appendWorks noCacheOpts)
    ⟨(failedRotation k).withPlan [], @slotMap noCacheOpts (storedFile [1#8]), []⟩ (deleteAfterFailure k) := by
  have hrecord : @Appendable ((failedRotation k).withPlan []) deleteRecord :=
    ⟨by decide, by decide, .inl rfl⟩
  rw [deleteAfterFailure]
  exact Steps.tail _ .refl ⟨rfl, hrecord, fun hhash => nomatch hhash⟩

omit [Opts] in
/-- A rotation whose erase fails. -/
theorem failed_rotation_harmless_erase :
    ∃ w', (@mount noCacheOpts smallMount).run (deleteAfterFailure 0).world = (.ok (), w') ∧
      @slotMap noCacheOpts w' = (deleteAfterFailure 0).acked := by
  have hstate : @IndexState noCacheOpts (storedFile [1#8]) [[⟨52512, 7⟩]] :=
    (@indexState_iff noCacheOpts _ _ rfl).mpr (by decide +kernel)
  have hfail := failedRotation_run (k := 0) (by decide +kernel)
  refine (@failed_rotation_harmless noCacheOpts (storedFile [1#8]) _ _ _ _ smallMount hstate
    (by decide +kernel) (by decide +kernel) hfail).2 (by decide +kernel) _ (deleteAfterFailure_steps 0) ?_
  decide +kernel

omit [Opts] in
/-- A rotation whose header is not completed: the delete after it is acknowledged, and the
file is back after the next mount. -/
theorem failed_rotation_loses_append :
    ¬ ∀ [Opts] (w u : World) (logs : List (List IndexRecord)) (plan : List Fault) (e : Status)
      (o : MountOptions), IndexState w logs → mountOptionsOk w o →
      o.indexHashTableSize = w.fs.indexHashTableSize →
      rotateIndex.run (w.withPlan plan) = (.error e, u) →
      ∀ s, Steps appendStep appendWorks ⟨u.withPlan [], slotMap w, []⟩ s →
      ∃ w', (mount o).run s.world = (.ok (), w') ∧ slotMap w' = s.acked := by
  intro hall
  have hstate : @IndexState noCacheOpts (storedFile [1#8]) [[⟨52512, 7⟩]] :=
    (@indexState_iff noCacheOpts _ _ rfl).mpr (by decide +kernel)
  have hfail := failedRotation_run (k := 6) (by decide +kernel)
  obtain ⟨w', hrun, hmap⟩ := @hall noCacheOpts (storedFile [1#8]) _ _ _ _ smallMount hstate
    (by decide +kernel) (by decide +kernel) hfail (deleteAfterFailure 6)
    (deleteAfterFailure_steps 6)
  have hlost : @slotMap noCacheOpts ((@mount noCacheOpts smallMount).run
      (deleteAfterFailure 6).world).2 52512 ≠ (deleteAfterFailure 6).acked 52512 := by
    decide +kernel
  rw [hrun] at hlost
  exact hlost (congrFun hmap 52512)

end Fastffs
