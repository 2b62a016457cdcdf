import Fastffs.Torn

/-!
# Counting the calls of a program

A program that hands every error of the device to its caller makes a number of calls
that depends only on the world it starts in.  If that many calls work, it does what it
does on a device that never fails.  If one of them fails, it stops (`CountedAt`).
-/

namespace Fastffs

open Prog
open Nor (Mem Byte blank)

/-- The call works. -/
def Fault.passes : Fault → Bool
  | .pass => true
  | _ => false

/-- The first `n` calls of the plan work. -/
def works (n : Nat) (plan : List Fault) : Prop := ∀ i < n, (plan.getD i .pass).passes = true

/-- The call reports an error, and the device stays on. -/
def Fault.fails : Fault → Bool
  | .fail _ _ => true
  | _ => false

theorem Fault.passes_of_fails {f : Fault} (h : f.fails = true) : f.passes = false := by
  cases f with
  | fail keep done => rfl
  | pass => cases h
  | cut keep done => cases h
  | off => cases h

section Works

variable {n k i : Nat} {plan : List Fault}

theorem works_zero : works 0 plan := fun _ h => absurd h (Nat.not_lt_zero _)

theorem works_nil : works n [] := fun _ _ => rfl

theorem getD_drop_plan : (plan.drop n).getD i .pass = plan.getD (n + i) .pass := by
  rw [List.getD_eq_getElem?_getD, List.getD_eq_getElem?_getD, List.getElem?_drop]

theorem works_add : works (n + k) plan ↔ works n plan ∧ works k (plan.drop n) := by
  constructor
  · intro h
    refine ⟨fun i hi => h i (by omega), fun i hi => ?_⟩
    rw [getD_drop_plan]
    exact h (n + i) (by omega)
  · rintro ⟨h1, h2⟩ i hi
    by_cases hlt : i < n
    · exact h1 i hlt
    · have h := h2 (i - n) (by omega)
      rwa [getD_drop_plan, show n + (i - n) = i by omega] at h

theorem works.mono (h : works n plan) (hle : k ≤ n) : works k plan := fun i hi => h i (by omega)

/-- A plan with a call that does not work has a first one. -/
theorem exists_first_fault (h : ¬ works n plan) :
    ∃ i < n, works i plan ∧ (plan.getD i .pass).passes = false := by
  induction n with
  | zero => exact absurd works_zero h
  | succ n ih =>
    by_cases hn : works n plan
    · refine ⟨n, Nat.lt_succ_self n, hn, Bool.eq_false_of_not_eq_true fun hp => h ?_⟩
      rw [works_add]
      refine ⟨hn, fun i hi => ?_⟩
      rw [getD_drop_plan, show n + i = n by omega]
      exact hp
    · obtain ⟨i, hi, h1, h2⟩ := ih hn
      exact ⟨i, by omega, h1, h2⟩

end Works

/-- On a device that never fails the program makes `n` calls from `w`.  If they work, the
run is the same, and if one of them fails, the program stops. -/
structure CountedAt {α : Type} (x : M α) (w : World) (n : Nat) : Prop where
  pass : ∀ plan, works n plan →
    x.run (w.withPlan plan) = ((x.run w).1, (x.run w).2.withPlan (plan.drop n))
  stop : ∀ plan, ¬ works n plan → ∃ e, (x.run (w.withPlan plan)).1 = .error e
  fail : ∀ plan i, i < n → works i plan → (plan.getD i .pass).fails = true →
    (x.run (w.withPlan plan)).2.dev.plan = plan.drop (i + 1)

/-- A program that makes a number of calls from every world. -/
class Counted {α : Type} (x : M α) : Prop where
  counted : ∀ w, w.dev.plan = [] → ∃ n, CountedAt x w n

section Rules

variable {α β : Type} {x y : M α} {f : α → M β} {w w' : World} {n k : Nat}

theorem CountedAt.plan (h : CountedAt x w n) (hplan : w.dev.plan = []) : (x.run w).2.dev.plan = [] := by
  have hrun := h.pass [] works_nil
  rw [World.withPlan_nil hplan, List.drop_nil] at hrun
  exact congrArg (fun p => p.2.dev.plan) hrun

/-- A program that does not use the device. -/
theorem CountedAt.ofPure
    (h : ∀ plan, x.run (w.withPlan plan) = ((x.run w).1, (x.run w).2.withPlan plan)) : CountedAt x w 0 where
  pass plan _ := by rw [List.drop_zero]; exact h plan
  stop plan hno := absurd works_zero hno
  fail plan i hi := absurd hi (Nat.not_lt_zero _)

theorem Counted.ofPure
    (h : ∀ w plan, x.run (w.withPlan plan) = ((x.run w).1, (x.run w).2.withPlan plan)) : Counted x :=
  ⟨fun w _ => ⟨0, .ofPure (h w)⟩⟩

instance (a : α) : Counted (pure a : M α) := .ofPure fun _ _ => rfl

instance (e : Status) : Counted (throw e : M α) := .ofPure fun _ _ => rfl

instance : Counted getFs := .ofPure fun _ _ => rfl

instance (g : Fs → Fs) : Counted (modifyFs g) := .ofPure fun _ _ => rfl

/-- The rule for a sequence whose first part returns. -/
theorem CountedAt.bind {a : α} (hx : CountedAt x w n) (hrun : x.run w = (.ok a, w'))
    (hf : CountedAt (f a) w' k) : CountedAt (x >>= f) w (n + k) := by
  have hpass : ∀ plan, works n plan →
      (x >>= f).run (w.withPlan plan) = (f a).run (w'.withPlan (plan.drop n)) := by
    intro plan hw
    have h := hx.pass plan hw
    rw [hrun] at h
    exact bind_of_ok h
  have hstop : ∀ plan, ¬ works n plan → ∃ e, (x >>= f).run (w.withPlan plan) =
      (.error e, (x.run (w.withPlan plan)).2) := by
    intro plan hno
    obtain ⟨e, he⟩ := hx.stop plan hno
    exact ⟨e, bind_of_error (Prod.ext he rfl)⟩
  refine ⟨fun plan hw => ?_, fun plan hno => ?_, fun plan i hi hw hfail => ?_⟩
  · obtain ⟨h1, h2⟩ := works_add.mp hw
    rw [hpass plan h1, hf.pass _ h2, bind_of_ok hrun, List.drop_drop]
  · by_cases h1 : works n plan
    · rw [hpass plan h1]
      exact hf.stop _ fun h2 => hno (works_add.mpr ⟨h1, h2⟩)
    · obtain ⟨e, he⟩ := hstop plan h1
      exact ⟨e, by rw [he]⟩
  · by_cases hlt : i < n
    · have hno : ¬ works n plan := fun h => by
        have hp := h i hlt
        rw [Fault.passes_of_fails hfail] at hp
        cases hp
      obtain ⟨e, he⟩ := hstop plan hno
      rw [he]
      exact hx.fail plan i hlt hw hfail
    · have hsplit : works n plan ∧ works (i - n) (plan.drop n) := by
        rw [← works_add, show n + (i - n) = i by omega]
        exact hw
      rw [hpass plan hsplit.1, hf.fail _ (i - n) (by omega) hsplit.2 (by
        rw [getD_drop_plan, show n + (i - n) = i by omega]; exact hfail), List.drop_drop]
      congr 1
      omega

/-- The rule for a sequence whose first part stops. -/
theorem CountedAt.bind_error {e : Status} (hx : CountedAt x w n) (hrun : x.run w = (.error e, w')) :
    CountedAt (x >>= f) w n := by
  have hall : ∀ plan, ∃ e', (x >>= f).run (w.withPlan plan) = (.error e', (x.run (w.withPlan plan)).2) := by
    intro plan
    by_cases hw : works n plan
    · have h := hx.pass plan hw
      rw [hrun] at h
      exact ⟨e, bind_of_error (Prod.ext (by rw [h]) rfl)⟩
    · obtain ⟨e', he⟩ := hx.stop plan hw
      exact ⟨e', bind_of_error (Prod.ext he rfl)⟩
  refine ⟨fun plan hw => ?_, fun plan hno => ?_, fun plan i hi hw hfail => ?_⟩
  · have h := hx.pass plan hw
    rw [hrun] at h
    rw [bind_of_error h, bind_of_error hrun]
  · obtain ⟨e', he⟩ := hall plan
    exact ⟨e', by rw [he]⟩
  · obtain ⟨e', he⟩ := hall plan
    rw [he]
    exact hx.fail plan i hi hw hfail

/-- The rule for a sequence. -/
instance Counted.bind [hx : Counted x] [k : ∀ a, Counted (f a)] : Counted (x >>= f) where
  counted w hw := by
    obtain ⟨n, hn⟩ := hx.counted w hw
    have hplan := hn.plan hw
    rcases hrun : x.run w with ⟨r, w'⟩
    rw [hrun] at hplan
    cases r with
    | error e => exact ⟨n, hn.bind_error hrun⟩
    | ok a =>
      obtain ⟨m, hm⟩ := (k a).counted w' hplan
      exact ⟨n + m, hn.bind hrun hm⟩

/-- The rule for a program that looks at the world, but not at the plan. -/
theorem Counted.get {g : World → M β} (hg : ∀ w plan, g (w.withPlan plan) = g w)
    (h : ∀ w, Counted (g w)) : Counted (Prog.get >>= g) where
  counted w hw := by
    obtain ⟨n, hn⟩ := (h w).counted w hw
    have hrun : ∀ plan, (Prog.get >>= g).run (w.withPlan plan) = (g w).run (w.withPlan plan) := by
      intro plan
      rw [bind_of_ok (run_get _), hg]
    have hrun0 : (Prog.get >>= g).run w = (g w).run w := bind_of_ok (run_get w)
    refine ⟨n, fun plan hp => ?_, fun plan hp => ?_, fun plan i hi hp hfail => ?_⟩
    · rw [hrun, hrun0]
      exact hn.pass plan hp
    · rw [hrun]
      exact hn.stop plan hp
    · rw [hrun]
      exact hn.fail plan i hi hp hfail

instance {c : Prop} [Decidable c] [hx : Counted x] [hy : Counted y] : Counted (if c then x else y) := by
  split
  · exact hx
  · exact hy

instance {c : Prop} [Decidable c] {z : M Unit} [hz : Counted z] : Counted (when c z) := by
  unfold Prog.when
  infer_instance

end Rules

/-! ## Calls of the device -/

/-- A plan of which the first call works or not. -/
theorem works_one {plan : List Fault} : works 1 plan ↔ (plan.getD 0 .pass).passes = true :=
  ⟨fun h => h 0 Nat.one_pos, fun h i hi => by rw [show i = 0 by omega]; exact h⟩

instance (off n : Nat) : Counted (flashRead off n) where
  counted w hw := by
    obtain ⟨⟨m, g, plan0⟩, fs, files, trace⟩ := w
    obtain rfl : plan0 = [] := hw
    refine ⟨1, fun plan hp => ?_, fun plan hp => ?_, fun plan i hi hp hfail => ?_⟩
    · rw [works_one] at hp
      by_cases hle : off + n ≤ m.size
      · rcases plan with _ | ⟨fault, rest⟩
        · simp only [flashRead, Device.read, World.withPlan, if_pos hle]
          rfl
        · cases fault with
          | pass =>
            simp only [flashRead, Device.read, World.withPlan, if_pos hle]
            rfl
          | fail keep done => cases hp
          | cut keep done => cases hp
          | off => cases hp
      · rcases plan with _ | ⟨fault, rest⟩
        · simp only [flashRead, Device.read, World.withPlan, if_neg hle]
          rfl
        · cases fault with
          | pass =>
            simp only [flashRead, Device.read, World.withPlan, if_neg hle]
            rfl
          | fail keep done => cases hp
          | cut keep done => cases hp
          | off => cases hp
    · rw [works_one] at hp
      simp only [flashRead, Device.read, World.withPlan]
      rcases plan with _ | ⟨fault, rest⟩
      · exact absurd rfl hp
      · cases fault with
        | pass => exact absurd rfl hp
        | fail keep done => exact ⟨_, rfl⟩
        | cut keep done => exact ⟨_, rfl⟩
        | off => exact ⟨_, rfl⟩
    · obtain rfl : i = 0 := by omega
      rcases plan with _ | ⟨fault, rest⟩
      · cases hfail
      · cases fault with
        | pass => cases hfail
        | fail keep done => rfl
        | cut keep done => cases hfail
        | off => cases hfail

instance (off : Nat) (bs : List Byte) : Counted (backendProgram off bs) where
  counted w hw := by
    obtain ⟨⟨m, g, plan0⟩, fs, files, trace⟩ := w
    obtain rfl : plan0 = [] := hw
    refine ⟨1, fun plan hp => ?_, fun plan hp => ?_, fun plan i hi hp hfail => ?_⟩
    · rw [works_one] at hp
      by_cases hle : off + bs.length ≤ m.size
      · rcases plan with _ | ⟨fault, rest⟩
        · simp only [backendProgram, Device.program, World.withPlan, if_pos hle]
          rfl
        · cases fault with
          | pass =>
            simp only [backendProgram, Device.program, World.withPlan, if_pos hle]
            rfl
          | fail keep done => cases hp
          | cut keep done => cases hp
          | off => cases hp
      · rcases plan with _ | ⟨fault, rest⟩
        · simp only [backendProgram, Device.program, World.withPlan, if_neg hle]
          rfl
        · cases fault with
          | pass =>
            simp only [backendProgram, Device.program, World.withPlan, if_neg hle]
            rfl
          | fail keep done => cases hp
          | cut keep done => cases hp
          | off => cases hp
    · rw [works_one] at hp
      by_cases hle : off + bs.length ≤ m.size
      · simp only [backendProgram, Device.program, World.withPlan, if_pos hle]
        rcases plan with _ | ⟨fault, rest⟩
        · exact absurd rfl hp
        · cases fault with
          | pass => exact absurd rfl hp
          | fail keep done => exact ⟨_, rfl⟩
          | cut keep done => exact ⟨_, rfl⟩
          | off => exact ⟨_, rfl⟩
      · simp only [backendProgram, Device.program, World.withPlan, if_neg hle]
        exact ⟨_, rfl⟩
    · obtain rfl : i = 0 := by omega
      rcases plan with _ | ⟨fault, rest⟩
      · cases hfail
      · cases fault with
        | pass => cases hfail
        | fail keep done =>
          by_cases hle : off + bs.length ≤ m.size
          · simp only [backendProgram, Device.program, World.withPlan, if_pos hle]
            rfl
          · simp only [backendProgram, Device.program, World.withPlan, if_neg hle]
            rfl
        | cut keep done => cases hfail
        | off => cases hfail

instance (granule fuel pos : Nat) (src : List Byte) : Counted (programChunks granule fuel pos src) := by
  induction fuel generalizing pos src with
  | zero => unfold programChunks; infer_instance
  | succ fuel ih => unfold programChunks; infer_instance

instance (off : Nat) (bs : List Byte) : Counted (programAligned off bs) := by
  unfold programAligned
  refine Counted.get (fun _ _ => rfl) fun w => ?_
  infer_instance

/-! ## Reading a root -/

instance (reader : SectorReader) (sector off size : Nat) :
    Counted (sectorReaderView reader sector off size) := by
  unfold sectorReaderView; infer_instance

instance (reader : SectorReader) (sector : Nat) : Counted (readSectorFooter reader sector) := by
  unfold readSectorFooter; infer_instance

instance (reader : SectorReader) (sector cursor : Nat) :
    Counted (decodeFileMdRecord reader sector cursor) := by
  unfold decodeFileMdRecord; infer_instance

instance (reader : SectorReader) (sector : Nat) : Counted (mdWalkInit reader sector) := by
  unfold mdWalkInit; infer_instance

instance (reader : SectorReader) (walk : MdWalk) : Counted (mdWalkNext reader walk) := by
  unfold mdWalkNext; infer_instance

instance (slot : Nat) (m : MdSlotMatch) (fuel : Nat) (reader : SectorReader) (walk : MdWalk) :
    Counted (readMdForSlotLoop slot m fuel reader walk) := by
  induction fuel generalizing reader walk with
  | zero => unfold readMdForSlotLoop; infer_instance
  | succ fuel ih => unfold readMdForSlotLoop; infer_instance

instance (sector slot : Nat) (m : MdSlotMatch) : Counted (readMdForSlotBy sector slot m) := by
  unfold readMdForSlotBy; infer_instance

instance (sector slot : Nat) : Counted (readFileRootMd sector slot) := by
  unfold readFileRootMd readMdForSlot; infer_instance

/-! ## Finding the index -/

instance (locked : IndexHeader) (off : Nat) (hdr : List Byte) (n i : Nat) (scan : HeaderScan) :
    Counted (scanIndexHeaders locked off hdr n i scan) := by
  induction n generalizing i scan with
  | zero => unfold scanIndexHeaders; infer_instance
  | succ n ih =>
    unfold scanIndexHeaders
    refine Counted.bind (k := fun hdr' => ?_)
    split <;> infer_instance

instance (shift off : Nat) : Counted (discoverAt shift off) := by
  unfold discoverAt
  refine Counted.get (fun _ _ => rfl) fun w => ?_
  split
  · infer_instance
  · refine Counted.bind (k := fun hdr => ?_)
    split
    · infer_instance
    · split
      · infer_instance
      · refine Counted.bind (k := fun scan => ?_)
        split <;> infer_instance

instance (fuel probe : Nat) : Counted (discoverLoop fuel probe) := by
  induction fuel generalizing probe with
  | zero => unfold discoverLoop; infer_instance
  | succ fuel ih =>
    unfold discoverLoop
    split
    · infer_instance
    · refine Counted.get (fun _ _ => rfl) fun w => ?_
      split
      · infer_instance
      · refine Counted.bind (k := fun s => ?_)
        split
        · infer_instance
        · refine Counted.bind (k := fun s => ?_)
          split <;> infer_instance

instance : Counted findIndexSequence := by
  unfold findIndexSequence; infer_instance

instance : Counted indexFinishInterruptedCompaction := by
  unfold indexFinishInterruptedCompaction indexCompactOldestFinish tombstoneIndexSector; infer_instance

instance (fuel off size : Nat) : Counted (indexFlashSpanErased fuel off size) := by
  induction fuel generalizing off size with
  | zero => unfold indexFlashSpanErased; infer_instance
  | succ fuel ih => unfold indexFlashSpanErased; infer_instance

instance (recOff : Nat) (chunk : List Byte) (pos nread endOff : Nat) :
    Counted (activeIndexRecordIsTerminal recOff chunk pos nread endOff) := by
  unfold activeIndexRecordIsTerminal; infer_instance

/-! ## The index in RAM -/

variable [Opts]

instance (slot head : Nat) : Counted (indexInsert slot head) := by
  unfold indexInsert
  refine Counted.bind (k := fun fs => ?_)
  split
  · infer_instance
  · infer_instance
  · split
    · infer_instance
    · split <;> infer_instance

instance (slot : Nat) : Counted (indexRemove slot) := by
  unfold indexRemove
  refine Counted.bind (k := fun fs => ?_)
  split
  · infer_instance
  · infer_instance
  · split
    · infer_instance
    · split
      · split <;> infer_instance
      · infer_instance

end Fastffs
