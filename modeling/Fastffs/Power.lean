import Fastffs.FlashSpec

/-!
# Losing power

A program that runs on a device that works `k` times and then loses power does
what it does on a device that never fails, up to the call at which power is lost.
After that no call changes the flash.

`Clears x` says so for a program `x` that only programs the flash.  The flash that a
loss of power leaves lies between the flash before `x` and the flash after a whole
run of `x`.
-/

namespace Fastffs

open Prog
open Nor (Mem Byte blank Below)

/-- The world with another plan of the device. -/
def World.withPlan (w : World) (plan : List Fault) : World :=
  { w with dev := { w.dev with plan := plan } }

/-- A device that works for `k` calls and loses power at the next one. -/
def cutAfter (k : Nat) (keep : Nat → Byte) (done : Bool) : List Fault :=
  List.replicate k .pass ++ [.cut keep done]

theorem World.withPlan_withPlan (w : World) (plan plan' : List Fault) :
    (w.withPlan plan).withPlan plan' = w.withPlan plan' := rfl

theorem World.withPlan_nil {w : World} (h : w.dev.plan = []) : w.withPlan [] = w := by
  rw [World.withPlan, ← h]

/-- How a run that loses power compares with a whole run: it has not met the cut, or
the flash lies between the flash `m` before the run and the flash after a whole run. -/
def CutRun {α : Type} (keep : Nat → Byte) (done : Bool) (m : Mem)
    (whole short : Except Status α × World) : Prop :=
  (∃ k, short = (whole.1, whole.2.withPlan (cutAfter k keep done))) ∨
    (short.2.dev.plan = [.off] ∧ Below short.2.dev.mem m ∧ Below whole.2.dev.mem short.2.dev.mem)

/-- The program clears bits of the flash and sets none, and it stands a loss of power
as `CutRun` says. -/
class Clears {α : Type} (x : M α) : Prop where
  calm : ∀ w, w.dev.plan = [] → (x.run w).2.dev.plan = []
  below : ∀ w, w.dev.plan = [] → Below (x.run w).2.dev.mem w.dev.mem
  off : ∀ w, w.dev.plan = [.off] → (x.run w).2.dev = w.dev
  cut : ∀ w, w.dev.plan = [] → ∀ k keep done,
    CutRun keep done w.dev.mem (x.run w) (x.run (w.withPlan (cutAfter k keep done)))

section Rules

variable {α β : Type} {x y : M α} {f : α → M β}

/-- A program that does not use the device. -/
theorem Clears.ofPure (h : ∀ w plan, x.run (w.withPlan plan) = ((x.run w).1, (x.run w).2.withPlan plan))
    (hdev : ∀ w, (x.run w).2.dev = w.dev) : Clears x where
  calm w hw := by rw [hdev, hw]
  below w _ := by rw [hdev]; exact .refl _
  off w _ := hdev w
  cut w _ k keep done := .inl ⟨k, h w _⟩

instance (a : α) : Clears (pure a : M α) := .ofPure (fun _ _ => rfl) fun _ => rfl

instance (e : Status) : Clears (throw e : M α) := .ofPure (fun _ _ => rfl) fun _ => rfl

instance : Clears getFs := .ofPure (fun _ _ => rfl) fun _ => rfl

instance (g : Fs → Fs) : Clears (modifyFs g) := .ofPure (fun _ _ => rfl) fun _ => rfl

/-- The rule for a sequence. -/
instance Clears.bind [hx : Clears x] [k : ∀ a, Clears (f a)] : Clears (x >>= f) := by
  -- the rest of the run clears bits too
  have hrest : ∀ w, w.dev.plan = [] → ((x >>= f).run w).2.dev.plan = [] ∧
      Below ((x >>= f).run w).2.dev.mem (x.run w).2.dev.mem := by
    intro w hw
    have hcalm := hx.calm w hw
    rw [run_bind]
    rcases hrun : x.run w with ⟨r, w'⟩
    rw [hrun] at hcalm
    cases r with
    | error e => exact ⟨hcalm, .refl _⟩
    | ok a => exact ⟨(k a).calm w' hcalm, (k a).below w' hcalm⟩
  refine ⟨fun w hw => (hrest w hw).1, fun w hw => (hrest w hw).2.trans (hx.below w hw), ?_, ?_⟩
  · intro w hw
    have hoff := hx.off w hw
    rw [run_bind]
    rcases hrun : x.run w with ⟨r, w'⟩
    rw [hrun] at hoff
    cases r with
    | error e => exact hoff
    | ok a => exact ((k a).off w' (by rw [hoff, hw])).trans hoff
  · intro w hw n keep done
    rcases hx.cut w hw n keep done with ⟨n', hn⟩ | ⟨hoff, hlow, hhigh⟩
    · -- power is still there for the second part
      have hcalm := hx.calm w hw
      have hbelow := hx.below w hw
      rw [run_bind, run_bind, hn]
      rcases hrun : x.run w with ⟨r, w'⟩
      rw [hrun] at hcalm hbelow
      cases r with
      | error e => exact .inl ⟨n', rfl⟩
      | ok a =>
        rcases (k a).cut w' hcalm n' keep done with h | ⟨h1, h2, h3⟩
        · exact .inl h
        · exact .inr ⟨h1, h2.trans hbelow, h3⟩
    · -- power is off for the second part
      have hdev : ((x >>= f).run (w.withPlan (cutAfter n keep done))).2.dev =
          (x.run (w.withPlan (cutAfter n keep done))).2.dev := by
        rw [run_bind]
        rcases hrun : x.run (w.withPlan (cutAfter n keep done)) with ⟨r, w'⟩
        rw [hrun] at hoff
        cases r with
        | error e => rfl
        | ok a => exact (k a).off w' hoff
      refine .inr ?_
      rw [hdev]
      exact ⟨hoff, hlow, (hrest w hw).2.trans hhigh⟩

/-- The rule for a program that looks at the world, but not at the plan. -/
theorem Clears.get {g : World → M β} (hg : ∀ w plan, g (w.withPlan plan) = g w)
    (h : ∀ w, Clears (g w)) : Clears (Prog.get >>= g) where
  calm w hw := (h w).calm w hw
  below w hw := (h w).below w hw
  off w hw := (h w).off w hw
  cut w hw k keep done := by
    have hcut := (h w).cut w hw k keep done
    have hrun : (Prog.get >>= g).run (w.withPlan (cutAfter k keep done)) =
        (g w).run (w.withPlan (cutAfter k keep done)) := by
      rw [bind_of_ok (run_get _), hg]
    rw [hrun, bind_of_ok (run_get w)]
    exact hcut

instance [h : Clears x] : Clears (attempt x) where
  calm := h.calm
  below := h.below
  off := h.off
  cut w hw k keep done := by
    rcases h.cut w hw k keep done with ⟨k', hk⟩ | hcut
    · refine .inl ⟨k', ?_⟩
      rw [run_attempt, run_attempt, hk]
    · exact .inr hcut

instance {c : Prop} [Decidable c] [hx : Clears x] [hy : Clears y] : Clears (if c then x else y) := by
  split
  · exact hx
  · exact hy

instance {c : Prop} [Decidable c] {z : M Unit} [hz : Clears z] : Clears (when c z) := by
  unfold Prog.when
  infer_instance

end Rules

/-! ## Calls of the device -/

theorem tear_below (bs : List Byte) (keep : Nat → Byte) (i : Nat) :
    bs.getD i blank &&& (tear bs keep).getD i blank = bs.getD i blank := by
  rw [tear, List.getD_eq_getElem?_getD, List.getD_eq_getElem?_getD, List.getElem?_mapIdx]
  rcases bs[i]? with _ | b
  · exact BitVec.and_self
  · simp only [Option.map_some, Option.getD_some]
    ext j
    simp only [BitVec.getElem_and, BitVec.getElem_or]
    cases b[j] <;> simp

instance (off n : Nat) : Clears (flashRead off n) where
  calm w hw := by
    have hkeeps := run_of_reads (x := flashRead off n) hw
    rw [hkeeps, hw]
  below w hw := by
    have hkeeps := run_of_reads (x := flashRead off n) hw
    rw [hkeeps]
    exact .refl _
  off w hw := by
    obtain ⟨⟨m, g, plan⟩, fs, files, trace⟩ := w
    cases hw
    rfl
  cut w hw k keep done := by
    obtain ⟨⟨m, g, plan⟩, fs, files, trace⟩ := w
    cases hw
    cases k with
    | zero => exact .inr ⟨rfl, .refl m, by rw [run_of_reads rfl]; exact .refl m⟩
    | succ k =>
      refine .inl ⟨k, ?_⟩
      by_cases hle : off + n ≤ m.size
      · simp [flashRead, Device.read, World.withPlan, cutAfter, List.replicate_succ, hle, Device.nextPlan]
      · simp [flashRead, Device.read, World.withPlan, cutAfter, List.replicate_succ, hle, Device.nextPlan]

instance (off : Nat) (bs : List Byte) : Clears (backendProgram off bs) where
  calm w hw := by
    obtain ⟨⟨m, g, plan⟩, fs, files, trace⟩ := w
    cases hw
    by_cases hle : off + bs.length ≤ m.size
    · simp [backendProgram, Device.program, hle, Device.nextPlan]
    · simp [backendProgram, Device.program, hle, Device.nextPlan]
  below w hw := by
    obtain ⟨⟨m, g, plan⟩, fs, files, trace⟩ := w
    cases hw
    by_cases hle : off + bs.length ≤ m.size
    · simpa [backendProgram, Device.program, hle] using Nor.program_below m off bs
    · simpa [backendProgram, Device.program, hle] using Below.refl m
  off w hw := by
    obtain ⟨⟨m, g, plan⟩, fs, files, trace⟩ := w
    cases hw
    by_cases hle : off + bs.length ≤ m.size
    · simp [backendProgram, Device.program, hle, Device.nextPlan]
    · simp [backendProgram, Device.program, hle, Device.nextPlan]
  cut w hw k keep done := by
    obtain ⟨⟨m, g, plan⟩, fs, files, trace⟩ := w
    cases hw
    by_cases hle : off + bs.length ≤ m.size
    · cases k with
      | zero =>
        right
        simpa [backendProgram, Device.program, World.withPlan, cutAfter, hle, Device.nextPlan] using
          ⟨Nor.program_below m off (tear bs keep), Nor.program_mono m off (tear_below bs keep)⟩
      | succ k =>
        refine .inl ⟨k, ?_⟩
        simp [backendProgram, Device.program, World.withPlan, cutAfter, List.replicate_succ, hle,
          Device.nextPlan]
    · cases k with
      | zero =>
        right
        simpa [backendProgram, Device.program, World.withPlan, cutAfter, hle, Device.nextPlan] using
          Below.refl m
      | succ k =>
        refine .inl ⟨k, ?_⟩
        simp [backendProgram, Device.program, World.withPlan, cutAfter, List.replicate_succ, hle,
          Device.nextPlan]

/-! ## The programs of a mount -/

instance (granule fuel pos : Nat) (src : List Byte) : Clears (programChunks granule fuel pos src) := by
  induction fuel generalizing pos src with
  | zero => unfold programChunks; infer_instance
  | succ fuel ih => unfold programChunks; infer_instance

instance (off : Nat) (bs : List Byte) : Clears (programAligned off bs) := by
  unfold programAligned
  refine Clears.get (fun _ _ => rfl) fun w => ?_
  infer_instance

instance (locked : IndexHeader) (off : Nat) (hdr : List Byte) (n i : Nat) (scan : HeaderScan) :
    Clears (scanIndexHeaders locked off hdr n i scan) := by
  induction n generalizing i scan with
  | zero => unfold scanIndexHeaders; infer_instance
  | succ n ih =>
    unfold scanIndexHeaders
    dsimp only
    refine Clears.bind (k := fun hdr => ?_)
    split <;> infer_instance

instance (shift off : Nat) : Clears (discoverAt shift off) := by
  unfold discoverAt
  refine Clears.get (fun _ _ => rfl) fun w => ?_
  split
  · infer_instance
  · refine Clears.bind (k := fun hdr => ?_)
    split
    · infer_instance
    · split
      · infer_instance
      · refine Clears.bind (k := fun scan => ?_)
        split <;> infer_instance

instance (fuel probe : Nat) : Clears (discoverLoop fuel probe) := by
  induction fuel generalizing probe with
  | zero => unfold discoverLoop; infer_instance
  | succ fuel ih =>
    unfold discoverLoop
    split
    · infer_instance
    · refine Clears.get (fun _ _ => rfl) fun w => ?_
      split
      · infer_instance
      · refine Clears.bind (k := fun r => ?_)
        split
        · infer_instance
        · refine Clears.bind (k := fun r => ?_)
          split <;> infer_instance

instance : Clears findIndexSequence := by
  unfold findIndexSequence; infer_instance

instance (sector : Nat) : Clears (indexCompactOldestFinish sector) := by
  unfold indexCompactOldestFinish tombstoneIndexSector; infer_instance

instance : Clears indexFinishInterruptedCompaction := by
  unfold indexFinishInterruptedCompaction; infer_instance

instance (reader : SectorReader) (sector off size : Nat) :
    Clears (sectorReaderView reader sector off size) := by
  unfold sectorReaderView; infer_instance

instance (reader : SectorReader) (sector : Nat) : Clears (readSectorFooter reader sector) := by
  unfold readSectorFooter; infer_instance

instance (sector : Nat) : Clears (readSectorSerial sector) := by
  unfold readSectorSerial; infer_instance

instance (reader : SectorReader) (sector cursor : Nat) :
    Clears (decodeFileMdRecord reader sector cursor) := by
  unfold decodeFileMdRecord; infer_instance

instance (reader : SectorReader) (sector : Nat) : Clears (mdWalkInit reader sector) := by
  unfold mdWalkInit; infer_instance

instance (reader : SectorReader) (walk : MdWalk) : Clears (mdWalkNext reader walk) := by
  unfold mdWalkNext; infer_instance

instance (slot : Nat) (m : MdSlotMatch) (fuel : Nat) (reader : SectorReader) (walk : MdWalk) :
    Clears (readMdForSlotLoop slot m fuel reader walk) := by
  induction fuel generalizing reader walk with
  | zero => unfold readMdForSlotLoop; infer_instance
  | succ fuel ih => unfold readMdForSlotLoop; infer_instance

instance (sector slot : Nat) (m : MdSlotMatch) : Clears (readMdForSlotBy sector slot m) := by
  unfold readMdForSlotBy; infer_instance

instance (sector slot : Nat) : Clears (readFileRootMd sector slot) := by
  unfold readFileRootMd readMdForSlot; infer_instance

instance (r : IndexRecord) : Clears (replayRootIsLive r) := by
  unfold replayRootIsLive; infer_instance

instance (fuel off size : Nat) : Clears (indexFlashSpanErased fuel off size) := by
  induction fuel generalizing off size with
  | zero => unfold indexFlashSpanErased; infer_instance
  | succ fuel ih => unfold indexFlashSpanErased; infer_instance

instance (recOff : Nat) (chunk : List Byte) (pos nread endOff : Nat) :
    Clears (activeIndexRecordIsTerminal recOff chunk pos nread endOff) := by
  unfold activeIndexRecordIsTerminal; infer_instance

instance (recOff : Nat) (terminal : Bool) : Clears (clobberOrRejectActiveTail recOff terminal) := by
  unfold clobberOrRejectActiveTail; infer_instance

instance (sector : Nat) : Clears (recoverSectorSerial sector) := by
  unfold recoverSectorSerial
  refine Clears.bind (k := fun fs => Clears.bind (k := fun r => ?_))
  split <;> infer_instance

instance (n sector : Nat) : Clears (recoverAllocatorLoop n sector) := by
  induction n generalizing sector with
  | zero => unfold recoverAllocatorLoop; infer_instance
  | succ n ih => unfold recoverAllocatorLoop; infer_instance

instance (head : Nat) : Clears (recoverAllocatorHint head) := by
  unfold recoverAllocatorHint; infer_instance

section Modes

variable [Opts]

instance (slot head : Nat) : Clears (indexInsert slot head) := by
  unfold indexInsert
  refine Clears.bind (k := fun fs => ?_)
  split
  · infer_instance
  · infer_instance
  · split
    · infer_instance
    · split <;> infer_instance

instance (slot : Nat) : Clears (indexRemove slot) := by
  unfold indexRemove
  refine Clears.bind (k := fun fs => ?_)
  split
  · infer_instance
  · infer_instance
  · split
    · infer_instance
    · split
      · split <;> infer_instance
      · infer_instance

instance (active : Bool) (off nread endOff : Nat) (chunk : List Byte) (fuel pos tail : Nat) :
    Clears (replayChunk active off nread endOff chunk fuel pos tail) := by
  induction fuel generalizing pos tail with
  | zero => unfold replayChunk; infer_instance
  | succ fuel ih => unfold replayChunk; infer_instance

instance (active : Bool) (endOff chunkSize fuel off tail : Nat) :
    Clears (replaySector active endOff chunkSize fuel off tail) := by
  induction fuel generalizing off tail with
  | zero => unfold replaySector; infer_instance
  | succ fuel ih => unfold replaySector; infer_instance

instance (n sector tail : Nat) : Clears (replaySectors n sector tail) := by
  induction n generalizing sector tail with
  | zero => unfold replaySectors; infer_instance
  | succ n ih => unfold replaySectors; infer_instance

instance : Clears replayIndex := by
  unfold replayIndex; infer_instance

instance : Clears mountReplay := by
  unfold mountReplay; infer_instance

instance (o : MountOptions) : Clears (mount o) := by
  unfold mount unmount
  refine Clears.get (fun _ _ => rfl) fun w => ?_
  split
  · infer_instance
  · refine Clears.bind (k := fun _ => Clears.bind (k := fun seq => ?_))
    dsimp only
    split
    · infer_instance
    · refine Clears.bind (k := fun _ => Clears.bind (k := fun r => ?_))
      split <;> infer_instance

end Modes

end Fastffs
