import Fastffs.IndexRing
import Fastffs.Mount
import Fastffs.Run

/-!
# What a mount does to the flash

A mount programs the flash at two places: it drops the oldest sector of a sequence
that leaves no index sector free, and it overwrites a torn last record.  The first
happens before the log has been read.
-/

namespace Fastffs

open Prog
open Nor (Mem Byte blank)

/-! ## The oldest sector -/

/-- A tombstoned header is not valid. -/
theorem headerAt_tombstoned (m : Mem) (off : Nat) :
    headerAt (Nor.program m (off + 7) [indexFlagsValid &&& ~~~0x40#8]) off = none := by
  apply validIndexHeader_tombstoned
  have h7 : byteAt (Nor.read (Nor.program m (off + 7) [indexFlagsValid &&& ~~~0x40#8]) off headerSize)
      7 = Nor.get m (off + 7) &&& (indexFlagsValid &&& ~~~0x40#8) := by
    rw [byteAt, Nor.getD_read _ _ _ _ _ (by decide), Nor.get_program, if_pos le_rfl, Nat.sub_self]
    rfl
  have hz : indexFlagsValid &&& ~~~0x40#8 &&& 0x40#8 = 0#8 := by decide
  rw [h7, BitVec.and_assoc, hz, BitVec.and_zero]

/-- Dropping the oldest sector changes the flash. -/
theorem Found.finishMem_ne {m : Mem} {seq : IndexSequence} (hf : Found m seq) (hfull : seq.full = true) :
    seq.finishMem m ≠ m := by
  intro heq
  have hplace : seq.ring.place seq.oldestSector < seq.count := by
    have hp : seq.ring.place seq.ring.oldest = 0 := by
      rw [IndexRing.place, if_pos le_rfl, Nat.sub_self]
    exact hp.trans_lt hf.wf.count_pos
  have hvalid := hf.headers seq.oldestSector hf.wf.oldest_lt hplace
  rw [← heq, IndexSequence.finishMem, if_pos hfull, headerAt_tombstoned] at hvalid
  simp at hvalid

variable [Opts]

/-! ## Errors of the cache -/

/-- The program never stops with `FFFS_ERR_CORRUPT`. -/
def NotCorrupt {α : Type} (x : M α) : Prop := ∀ w, (x.run w).1 ≠ .error .corrupt

theorem indexInsert_notCorrupt (slot head : Nat) : NotCorrupt (indexInsert slot head) := by
  intro w
  rw [indexInsert, bind_of_ok (run_getFs w)]
  cases Opts.indexCacheMode with
  | none => simp
  | fullSlotHeads => simp
  | hashHeads =>
    dsimp only
    split
    · simp
    · cases findSlotBucket w.fs slot <;> simp

theorem indexRemove_notCorrupt (slot : Nat) : NotCorrupt (indexRemove slot) := by
  intro w
  rw [indexRemove, bind_of_ok (run_getFs w)]
  cases Opts.indexCacheMode with
  | none => simp
  | fullSlotHeads => simp
  | hashHeads =>
    dsimp only
    split
    · simp
    · split
      · split <;> simp
      · simp

theorem applyRecords_notCorrupt (rs : List IndexRecord) : NotCorrupt (applyRecords rs) := by
  induction rs with
  | nil =>
    intro w
    simp [applyRecords]
  | cons r rs ih =>
    intro w
    have hr : ((applyRecord r).run w).1 ≠ .error .corrupt := by
      unfold applyRecord indexSet
      split
      · simp
      · split
        · exact indexRemove_notCorrupt _ w
        · exact indexInsert_notCorrupt _ _ w
    rw [applyRecords, run_bind]
    rcases hrun : (applyRecord r).run w with ⟨res, w'⟩
    rw [hrun] at hr
    cases res with
    | error e => exact hr
    | ok a => exact ih w'

/-! ## Rejected logs -/

/-- A call of type `Unit` has returned `FFFS_ERR_CORRUPT`. -/
def isCorrupt : Except Status Unit → Bool
  | .error .corrupt => true
  | _ => false

omit [Opts] in
theorem isCorrupt_iff {r : Except Status Unit} : isCorrupt r = true ↔ r = .error .corrupt := by
  rcases r with e | a
  · cases e <;> simp [isCorrupt]
  · simp [isCorrupt]

variable {w w' : World} {o : MountOptions} {seq : IndexSequence}

/-- The log that a mount replays holds a record that it rejects, and the records
before it fit the index cache. -/
def logRejected (w : World) (o : MountOptions) (seq : IndexSequence) : Prop :=
  let v := replayWorld w o seq
  let sc := scanLog v v.fs.indexSequenceCount v.fs.oldestIndexSector
  sc.stop = .bad ∧ ¬ (o.strict = false ∧ sc.terminal v = true) ∧
    ((applyRecords sc.records).run v).1 = .ok ()

/-- A mount stops with `FFFS_ERR_CORRUPT` in the replay exactly when the log is
rejected.  The flash is then as the replay has found it. -/
theorem replayIndex_corrupt (hplan : w.dev.plan = []) (hok : mountOptionsOk w o)
    (hf : Found w.dev.mem seq) :
    (replayIndex.run (replayWorld w o seq)).1 = .error .corrupt ↔ logRejected w o seq := by
  have hout := replayIndex_outcome (replayWorld_placed hplan hok hf)
  have hstrict : (replayWorld w o seq).fs.strict = o.strict := by
    obtain ⟨map, hmap⟩ := allocMapInit_eq (mountedFs w.dev.size o seq.finish)
    change (allocMapInit _).strict = _
    rw [hmap]
    rfl
  have hnot := applyRecords_notCorrupt (scanLog (replayWorld w o seq)
    (replayWorld w o seq).fs.indexSequenceCount
    (replayWorld w o seq).fs.oldestIndexSector).records (replayWorld w o seq)
  have hhint : ∀ v : World, v.dev.plan = [] → ∀ tail,
      ((allocatorHint tail).run v).1 ≠ .error .corrupt := by
    intro v hv tail
    obtain ⟨c, s, hrun⟩ := allocatorHint_run hv tail
    simp [hrun]
  rw [ReplayOutcome, hstrict] at hout
  unfold logRejected
  dsimp only
  rcases hrun : (applyRecords (scanLog (replayWorld w o seq)
    (replayWorld w o seq).fs.indexSequenceCount
    (replayWorld w o seq).fs.oldestIndexSector).records).run (replayWorld w o seq) with ⟨r, v1⟩
  rw [hrun] at hout hnot
  obtain ⟨b, heads, hv1⟩ := applyRecords_recached (v := replayWorld w o seq) hplan hrun
  cases r with
  | error e =>
    obtain ⟨x, hx⟩ := hout
    rw [hx]
    constructor
    · intro h
      exact absurd h hnot
    · rintro ⟨-, -, h⟩
      simp at h
  | ok a =>
    dsimp only at hout
    split at hout
    · next hstop =>
      rw [hout]
      refine ⟨fun h => absurd h (hhint _ (by rw [hv1]; exact hplan) _), fun h => absurd h.1 hstop⟩
    · next hstop =>
      rw [not_not] at hstop
      split at hout
      · next hrepair =>
        rw [hout]
        refine ⟨fun h => absurd h (hhint _ rfl _), fun h => absurd hrepair h.2.1⟩
      · next hreject =>
        obtain ⟨x, hx⟩ := hout
        rw [hx]
        exact ⟨fun _ => ⟨hstop, hreject, rfl⟩, fun _ => rfl⟩

/-- A replay that stops leaves the flash as it has found it. -/
theorem replayIndex_corrupt_mem (hplan : w.dev.plan = []) (hok : mountOptionsOk w o)
    (hf : Found w.dev.mem seq) (h : (replayIndex.run (replayWorld w o seq)).1 = .error .corrupt) :
    (replayIndex.run (replayWorld w o seq)).2.dev.mem = seq.finishMem w.dev.mem := by
  have hout := replayIndex_outcome (replayWorld_placed hplan hok hf)
  obtain ⟨hstop, hreject, hrun1⟩ := (replayIndex_corrupt hplan hok hf).mp h
  have hstrict : (replayWorld w o seq).fs.strict = o.strict := by
    obtain ⟨map, hmap⟩ := allocMapInit_eq (mountedFs w.dev.size o seq.finish)
    change (allocMapInit _).strict = _
    rw [hmap]
    rfl
  rw [ReplayOutcome, hstrict] at hout
  rcases hrun : (applyRecords (scanLog (replayWorld w o seq)
    (replayWorld w o seq).fs.indexSequenceCount
    (replayWorld w o seq).fs.oldestIndexSector).records).run (replayWorld w o seq) with ⟨r, v1⟩
  obtain ⟨b, heads, hv1⟩ := applyRecords_recached (v := replayWorld w o seq) hplan hrun
  rw [hrun] at hout hrun1
  obtain rfl : r = .ok () := hrun1
  dsimp only at hout
  rw [if_neg (not_not.mpr hstop), if_neg hreject] at hout
  obtain ⟨x, hx⟩ := hout
  rw [hx, hv1]
  rfl

/-- A mount that is rejected leaves the flash alone, unless it has found a sequence
that leaves no index sector free, and then rejects the rest of the log. -/
theorem rejected_mount_keeps_flash (hplan : w.dev.plan = []) :
    (∀ w', (mount o).run w = (.error .corrupt, w') → w'.dev.mem = w.dev.mem) ↔
      ¬ (mountOptionsOk w o ∧ ∃ seq, mountable w.dev.mem = some seq ∧ seq.full = true ∧
        logRejected w o seq) := by
  constructor
  · rintro h ⟨hok, seq, hseq, hfull, hreject⟩
    have hf := (mountable_some hseq).1
    have hcorrupt := (replayIndex_corrupt hplan hok hf).mpr hreject
    have hmem := replayIndex_corrupt_mem hplan hok hf hcorrupt
    have hrun := mount_run (o := o) hplan hok
    rw [hseq] at hrun
    rcases hr : replayIndex.run (replayWorld w o seq) with ⟨r, v⟩
    rw [hr] at hcorrupt hmem
    obtain rfl : r = .error .corrupt := hcorrupt
    simp only [hr, afterReplay] at hrun
    have hsame := h _ hrun
    exact hf.finishMem_ne hfull (hmem.symm.trans hsame)
  · intro hcond w' hrun
    by_cases hok : mountOptionsOk w o
    · rw [mount_run hplan hok] at hrun
      rcases hseq : mountable w.dev.mem with _ | seq
      · rw [hseq] at hrun
        simp only [Prod.mk.injEq, true_and] at hrun
        rw [← hrun]
      · have hf := (mountable_some hseq).1
        rw [hseq] at hrun
        rcases hr : replayIndex.run (replayWorld w o seq) with ⟨r, v⟩
        cases r with
        | ok a => simp [hr, afterReplay] at hrun
        | error e =>
          simp only [hr, afterReplay, Prod.mk.injEq, Except.error.injEq] at hrun
          obtain ⟨rfl, rfl⟩ := hrun
          have hcorrupt : (replayIndex.run (replayWorld w o seq)).1 = .error .corrupt := by rw [hr]
          have hmem := replayIndex_corrupt_mem hplan hok hf hcorrupt
          have hfull : ¬ seq.full = true := fun hfull => hcond ⟨hok, seq, hseq, hfull,
            (replayIndex_corrupt hplan hok hf).mp hcorrupt⟩
          rw [hr, IndexSequence.finishMem, if_neg hfull] at hmem
          exact hmem
    · -- the mount returns before it reads anything
      have hguard : validBackend w.dev = false ∨ indexCacheConfigValid o.indexHashTableSize = false ∨
          o.scratchSize < minScratchSize := by
        by_contra hno
        simp only [not_or, Bool.not_eq_false, not_lt] at hno
        exact hok hno
      rw [mount, bind_of_ok (run_get w), if_pos hguard] at hrun
      simp at hrun

/-- A chip of eight sectors of 256 bytes with two index sectors and the index records
`records` at `off`.  The first sector has the serial `0`.  If `second` is set, the
second one has a header too, with the serial `1`. -/
def twoIndexSectors (second : Bool) (off : Nat) (records : List Byte) : World :=
  let header := fun serial => (encodeIndexHeader 2 0 serial).take 7 ++ [indexFlagsValid]
  let m := Nor.program (Nor.erased (8 * 256)) 0 (header 0)
  let m := if second then Nor.program m 256 (header 1) else m
  { blankChip 8 with dev := { mem := Nor.program m off records, programGranule := 1, plan := [] } }

omit [Opts] in
/-- A log whose only sector holds two records of slot `0`. -/
theorem rejected_mount_keeps_flash_spare :
    let w := twoIndexSectors false 8 [0, 0, 5, 0, 0, 0, 5, 0]
    isCorrupt ((@mount defaultOpts smallMount).run w).1 = true ∧
      ∀ w', (@mount defaultOpts smallMount).run w = (.error .corrupt, w') → w'.dev.mem = w.dev.mem := by
  intro w
  refine ⟨by decide +kernel, (@rejected_mount_keeps_flash defaultOpts w smallMount rfl).mpr ?_⟩
  rintro ⟨-, seq, hseq, hfull, -⟩
  have hspare : (mountable w.dev.mem).all (fun seq => !seq.full) = true := by decide +kernel
  rw [hseq, Option.all_some, hfull] at hspare
  simp at hspare

omit [Opts] in
/-- Two sectors that fill the ring, and two records of slot `0` in the second one. -/
theorem rejected_mount_changes_flash :
    ¬ ∀ (opts : Opts) (o : MountOptions) (w w' : World), w.dev.plan = [] →
      (@mount opts o).run w = (.error .corrupt, w') → w'.dev.mem = w.dev.mem := by
  intro hall
  let w := twoIndexSectors true 264 [0, 0, 5, 0, 0, 0, 5, 0]
  have hcorrupt : isCorrupt ((@mount defaultOpts smallMount).run w).1 = true := by decide +kernel
  have hmem : ((@mount defaultOpts smallMount).run w).2.dev.mem ≠ w.dev.mem := by decide +kernel
  exact hmem (hall defaultOpts smallMount w _ rfl (Prod.ext (isCorrupt_iff.mp hcorrupt) rfl))

end Fastffs
