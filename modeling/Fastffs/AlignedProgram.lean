import Fastffs.ReadHandle

/-!
# Aligned programming

`fffs_backend_program_aligned` takes any range and programs whole granules.
`alignedCalls` are the calls of `backend->program` it makes, and making these calls one
after the other is all it does, on every device (`programAligned_calls`).  On a backend
that `fffs_valid_backend` accepts each of them is aligned and inside the flash, and
together they clear the bits of the buffer and no others (`programAligned_exact`).
-/

namespace Fastffs

open Prog
open Nor (Mem Byte blank)

/-! ## The calls -/

/-- A call of `backend->program`: the offset and the bytes. -/
abbrev ProgramCall := Nat × List Byte

/-- The calls of the padded loop. -/
def chunkCalls (granule : Nat) : Nat → Nat → List Byte → List ProgramCall
  | 0, _, _ => []
  | fuel + 1, pos, src =>
      if src.isEmpty then []
      else
        let base := pos - pos % granule
        let inChunk := pos - base
        let n := min (granule - inChunk) src.length
        (base, List.replicate inChunk blank ++ src.take n ++
          List.replicate (granule - inChunk - n) blank) ::
          chunkCalls granule fuel (pos + n) (src.drop n)

/-- The calls of `fffs_backend_program_aligned`. -/
def alignedCalls (granule off : Nat) (bs : List Byte) : List ProgramCall :=
  if bs.isEmpty then []
  else if off % granule = 0 ∧ bs.length % granule = 0 then [(off, bs)]
  else chunkCalls granule bs.length off bs

/-- Make the calls one after the other, up to the first that fails. -/
def programCalls : List ProgramCall → M Unit
  | [] => pure ()
  | c :: cs => do
      backendProgram c.1 c.2
      programCalls cs

/-- A call of whole granules inside a flash of `size` bytes. -/
structure ProgramCall.Aligned (granule size : Nat) (c : ProgramCall) : Prop where
  offset : c.1 % granule = 0
  length : c.2.length % granule = 0
  inside : c.1 + c.2.length ≤ size

section Calls

variable {granule fuel pos off size : Nat} {src bs : List Byte} {w w' : World}

theorem programChunks_calls :
    programChunks granule fuel pos src = programCalls (chunkCalls granule fuel pos src) := by
  induction fuel generalizing pos src with
  | zero => rfl
  | succ fuel ih =>
    rw [programChunks, chunkCalls]
    cases src.isEmpty with
    | true => rfl
    | false => exact congrArg (backendProgram _ _ >>= ·) (funext fun _ => ih)

/-- A single call, as a list of calls. -/
theorem programCalls_singleton (c : ProgramCall) (w : World) :
    (programCalls [c]).run w = (backendProgram c.1 c.2).run w := by
  rw [programCalls, run_bind]
  rcases (backendProgram c.1 c.2).run w with ⟨r, w'⟩
  cases r <;> rfl

/-- `fffs_backend_program_aligned` makes these calls and does nothing else. -/
theorem programAligned_calls (w : World) (off : Nat) (bs : List Byte) :
    (programAligned off bs).run w = (programCalls (alignedCalls w.dev.programGranule off bs)).run w := by
  rw [programAligned, bind_of_ok (run_get w), alignedCalls]
  dsimp only
  split
  · rfl
  · split
    · exact (programCalls_singleton (off, bs) w).symm
    · rw [programChunks_calls]

/-- Every call of the padded loop is one granule of the flash. -/
theorem chunkCalls_aligned (hg : 0 < granule) (hsize : size % granule = 0) (hle : pos + src.length ≤ size) :
    ∀ c ∈ chunkCalls granule fuel pos src, c.Aligned granule size := by
  induction fuel generalizing pos src with
  | zero => exact fun c hc => by cases hc
  | succ fuel ih =>
    intro c hc
    rw [chunkCalls] at hc
    split at hc
    · cases hc
    next hne =>
    have hpos : 0 < src.length := List.length_pos_iff.mpr fun hnil => hne (List.isEmpty_iff.mpr hnil)
    have hmod := Nat.mod_lt pos hg
    have hmodle := Nat.mod_le pos granule
    cases hc with
    | head =>
      have hlen : (List.replicate (pos - (pos - pos % granule)) blank ++
          src.take (min (granule - (pos - (pos - pos % granule))) src.length) ++
          List.replicate (granule - (pos - (pos - pos % granule)) -
            min (granule - (pos - (pos - pos % granule))) src.length) blank).length = granule := by
        simp only [List.length_append, List.length_replicate, List.length_take]
        omega
      refine ⟨Nat.sub_mod_eq_zero_of_mod_eq (Nat.mod_mod pos granule).symm, ?_, ?_⟩
      · rw [hlen, Nat.mod_self]
      · rw [hlen]
        exact granule_fits hsize (show pos < size by omega)
    | tail _ hc =>
      refine ih ?_ c hc
      rw [List.length_drop]
      omega

/-- Every call of `fffs_backend_program_aligned` is aligned and inside the flash. -/
theorem alignedCalls_aligned (hg : 0 < granule) (hsize : size % granule = 0) (hle : off + bs.length ≤ size) :
    ∀ c ∈ alignedCalls granule off bs, c.Aligned granule size := by
  intro c hc
  rw [alignedCalls] at hc
  split at hc
  · cases hc
  · split at hc
    · next hwhole =>
      cases List.mem_singleton.mp hc
      exact ⟨hwhole.1, hwhole.2, hle⟩
    · exact chunkCalls_aligned hg hsize hle c hc

/-- Calls inside the flash return on a device without faults. -/
theorem programCalls_returns {calls : List ProgramCall} (hplan : noFault w.dev.plan)
    (hin : ∀ c ∈ calls, c.1 + c.2.length ≤ w.dev.size) : ∃ w', (programCalls calls).run w = (.ok (), w') := by
  induction calls generalizing w with
  | nil => exact ⟨w, rfl⟩
  | cons c cs ih =>
    have hcall : w.dev.program c.1 c.2 = (true, { w.dev with
        mem := Nor.program w.dev.mem c.1 c.2, plan := Device.nextPlan w.dev.plan }) := by
      rw [Device.program]
      dsimp only
      rw [if_pos (show c.1 + c.2.length ≤ w.dev.mem.size from hin c List.mem_cons_self)]
      cases hp : w.dev.plan with
      | nil => rfl
      | cons f rest =>
        cases hplan f (by rw [hp]; exact List.mem_cons_self)
        rfl
    have hrun : (backendProgram c.1 c.2).run w =
        (.ok (), w.withMem (Nor.program w.dev.mem c.1 c.2) (Device.nextPlan w.dev.plan)) := by
      simp only [backendProgram, hcall]
      rfl
    rw [programCalls, bind_of_ok hrun]
    exact ih (noFault_nextPlan hplan) fun c' hc' => hin c' (List.mem_cons_of_mem c hc')

/-! ## What they program -/

/-- On a valid backend, `fffs_backend_program_aligned` makes aligned calls inside the flash.
When they succeed the range has lost the bits that are clear in the buffer, and nothing else
has changed.  Without faults they succeed. -/
theorem programAligned_exact (hvalid : validBackend w.dev = true) (hle : off + bs.length ≤ w.dev.size) :
    (programAligned off bs).run w = (programCalls (alignedCalls w.dev.programGranule off bs)).run w ∧
      (∀ c ∈ alignedCalls w.dev.programGranule off bs, c.Aligned w.dev.programGranule w.dev.size) ∧
      (∀ w', (programAligned off bs).run w = (.ok (), w') →
        w'.dev.mem.size = w.dev.mem.size ∧
          (∀ i (hi : i < bs.length), Nor.get w'.dev.mem (off + i) = Nor.get w.dev.mem (off + i) &&& bs[i]) ∧
          ∀ a, a < off ∨ off + bs.length ≤ a → Nor.get w'.dev.mem a = Nor.get w.dev.mem a) ∧
      (noFault w.dev.plan → ∃ w', (programAligned off bs).run w = (.ok (), w')) := by
  simp only [validBackend, Bool.and_eq_true, bne_iff_ne, decide_eq_true_eq] at hvalid
  have hg : 0 < w.dev.programGranule := Nat.pos_of_ne_zero hvalid.1.1.2
  have hcalls := programAligned_calls w off bs
  have haligned := alignedCalls_aligned hg hvalid.2 hle
  refine ⟨hcalls, haligned, fun w' hrun => ?_, fun hplan => ?_⟩
  · have hmem := (programAligned_ok hg hrun).mem
    rw [hmem]
    refine ⟨rfl, fun i hi => ?_, fun a ha => Nor.get_program_of_notMem ha⟩
    rw [Nor.get_program, if_pos (Nat.le_add_right off i), Nat.add_sub_cancel_left,
      List.getD_eq_getElem?_getD, List.getElem?_eq_getElem hi, Option.getD_some]
  · rw [hcalls]
    exact programCalls_returns hplan fun c hc => (haligned c hc).inside

/-- Four bytes from the last byte of a granule of three on: two calls. -/
theorem programAligned_exact_three :
    let w : World := { dev := { mem := Nor.erased 12, programGranule := 3, plan := [] }, fs := {}
                       files := fun _ => {} }
    alignedCalls 3 5 [1#8, 2#8, 3#8, 4#8] = [(3, [blank, blank, 1#8]), (6, [2#8, 3#8, 4#8])] ∧
      ∀ c ∈ alignedCalls 3 5 [1#8, 2#8, 3#8, 4#8], c.Aligned 3 w.dev.size := by
  intro w
  obtain ⟨-, hcalls, -⟩ : (programAligned 5 [1#8, 2#8, 3#8, 4#8]).run w = _ ∧ _ ∧ _ :=
    programAligned_exact (by decide) (by decide)
  exact ⟨by decide, hcalls⟩

end Calls

end Fastffs
