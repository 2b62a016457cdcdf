import Fastffs.Honest
import Fastffs.LogWrite

/-!
# Calls that fail on the way

A program of the flash that stops with an error has cleared some of the bits it was to
clear, and no others (`Torn`).  This holds for every plan of the device.
-/

namespace Fastffs

open Prog
open Nor (Mem Byte blank Below)

/-- Some of the bits that programming `bs` clears are cleared. -/
structure Torn (off : Nat) (bs : List Byte) (m m' : Mem) : Prop where
  high : Below m' m
  low : Below (Nor.program m off bs) m'

section Torn

variable {m m' m'' : Mem} {off : Nat} {bs : List Byte}

theorem Torn.none : Torn off bs m m := ⟨.refl m, Nor.program_below m off bs⟩

theorem Torn.all : Torn off bs m (Nor.program m off bs) := ⟨Nor.program_below m off bs, .refl _⟩

/-- Bytes that are not programmed stay. -/
theorem Torn.get_of_blank (h : Torn off bs m m') {i : Nat}
    (hi : off ≤ i → bs.getD (i - off) blank = blank) : Nor.get m' i = Nor.get m i := by
  refine h.low.between h.high ?_
  rw [Nor.get_program]
  split
  · next hle =>
    rw [hi hle]
    exact BitVec.and_allOnes
  · rfl

theorem Torn.outside (h : Torn off bs m m') : SameOutside off (off + bs.length) m m' := by
  refine ⟨h.high.size, fun i hi => h.get_of_blank fun hle => ?_⟩
  rw [List.getD_eq_getElem?_getD, List.getElem?_eq_none (by omega), Option.getD_none]

/-- The first part of the bytes is programmed, and the rest is torn. -/
theorem Torn.append {as : List Byte} (h : Torn (off + as.length) bs (Nor.program m off as) m') :
    Torn off (as ++ bs) m m' := by
  refine ⟨h.high.trans (Nor.program_below m off as), ?_⟩
  rw [← Nor.program_append]
  exact h.low

theorem Torn.left {as : List Byte} (h : Torn off as m m') : Torn off (as ++ bs) m m' := by
  refine ⟨h.high, ?_⟩
  rw [← Nor.program_append]
  exact (Nor.program_below _ _ _).trans h.low

/-- A program that clears one bit does it, or it does nothing. -/
theorem Torn.bit {b : Byte} (h : Torn off [b] m m')
    (hbit : ∀ c : Byte, c &&& Nor.get m off = c → Nor.get m off &&& b &&& c = Nor.get m off &&& b →
      c = Nor.get m off ∨ c = Nor.get m off &&& b) : m' = m ∨ m' = Nor.program m off [b] := by
  have hother : ∀ i, i ≠ off → Nor.get m' i = Nor.get m i ∧
      Nor.get (Nor.program m off [b]) i = Nor.get m i := by
    intro i hi
    refine ⟨h.outside.get i ?_, Nor.get_program_of_notMem ?_⟩
    · rw [List.length_singleton]
      omega
    · rw [List.length_singleton]
      omega
  have hat : Nor.get (Nor.program m off [b]) off = Nor.get m off &&& b := by
    rw [Nor.get_program, if_pos le_rfl, Nat.sub_self]
    rfl
  have hlow := h.low.get off
  rw [hat] at hlow
  rcases hbit (Nor.get m' off) (h.high.get off) hlow with hc | hc
  · left
    refine Nor.ext_get h.high.size fun i => ?_
    by_cases hi : i = off
    · rw [hi, hc]
    · exact (hother i hi).1
  · right
    refine Nor.ext_get h.high.size fun i => ?_
    by_cases hi : i = off
    · rw [hi, hc, hat]
    · rw [(hother i hi).1, (hother i hi).2]

end Torn

/-! ## Programming the flash -/

section Program

variable {w : World} {off : Nat} {bs : List Byte}

/-- The program ends in `w` with a torn flash. -/
def Tears (w : World) (off : Nat) (bs : List Byte) (v : World) : Prop :=
  ∃ m plan, v = w.withMem m plan ∧ Torn off bs w.dev.mem m

theorem Tears.refl (w : World) : Tears w off bs w := ⟨w.dev.mem, w.dev.plan, rfl, .none⟩

theorem backendProgram_tears (w : World) (off : Nat) (bs : List Byte) :
    Tears w off bs ((backendProgram off bs).run w).2 := by
  obtain ⟨⟨m, g, plan⟩, fs, files, trace⟩ := w
  by_cases hle : off + bs.length ≤ m.size
  · rcases plan with _ | ⟨fault, rest⟩
    · simp only [backendProgram, Device.program, if_pos hle]
      exact ⟨_, _, rfl, .all⟩
    · have htorn : ∀ keep, Torn off bs m (Nor.program m off (tear bs keep)) := fun keep =>
        ⟨Nor.program_below _ _ _, Nor.program_mono m off (tear_below bs keep)⟩
      cases fault with
      | pass =>
        simp only [backendProgram, Device.program, if_pos hle]
        exact ⟨_, _, rfl, .all⟩
      | fail keep done =>
        simp only [backendProgram, Device.program, if_pos hle]
        exact ⟨_, _, rfl, htorn keep⟩
      | cut keep done =>
        simp only [backendProgram, Device.program, if_pos hle]
        exact ⟨_, _, rfl, htorn keep⟩
      | off =>
        simp only [backendProgram, Device.program, if_pos hle]
        exact ⟨_, _, rfl, .none⟩
  · simp only [backendProgram, Device.program, if_neg hle]
    exact ⟨_, _, rfl, .none⟩

theorem programChunks_tears {granule fuel pos : Nat} :
    Tears w pos bs ((programChunks granule fuel pos bs).run w).2 := by
  induction fuel generalizing pos bs w with
  | zero => exact .refl w
  | succ fuel ih =>
    rw [programChunks]
    by_cases hempty : bs.isEmpty = true
    · rw [if_pos hempty]
      exact .refl w
    · rw [if_neg hempty]
      dsimp only
      generalize hn : min (granule - (pos - (pos - pos % granule))) bs.length = k
      have hk : k ≤ bs.length := by omega
      have htake : (bs.take k).length = k := by rw [List.length_take]; omega
      have hpad : Nor.program w.dev.mem (pos - pos % granule)
          (List.replicate (pos - (pos - pos % granule)) blank ++ bs.take k ++
            List.replicate (granule - (pos - (pos - pos % granule)) - k) blank) =
          Nor.program w.dev.mem pos (bs.take k) := by
        rw [Nor.program_padded, Nat.add_sub_cancel' (Nat.sub_le ..)]
      obtain ⟨m, plan, hm, htorn⟩ := backendProgram_tears w (pos - pos % granule)
        (List.replicate (pos - (pos - pos % granule)) blank ++ bs.take k ++
          List.replicate (granule - (pos - (pos - pos % granule)) - k) blank)
      rw [run_bind]
      rcases hrun : (backendProgram (pos - pos % granule) (List.replicate (pos - (pos - pos % granule)) blank ++
        bs.take k ++ List.replicate (granule - (pos - (pos - pos % granule)) - k) blank)).run w with ⟨r, v⟩
      rw [hrun] at hm
      cases r with
      | error e =>
        have htorn' : Torn pos (bs.take k) w.dev.mem m := ⟨htorn.high, hpad ▸ htorn.low⟩
        refine ⟨m, plan, hm, ?_⟩
        rw [← List.take_append_drop k bs]
        exact htorn'.left
      | ok a =>
        obtain ⟨plan', rfl, -⟩ := backendProgram_ok hrun
        rw [hpad]
        obtain ⟨m', plan'', hm', hrest⟩ := @ih
          (w.withMem (Nor.program w.dev.mem pos (bs.take k)) plan') (bs.drop k) (pos + k)
        refine ⟨m', plan'', hm', ?_⟩
        rw [← List.take_append_drop k bs]
        refine Torn.append ?_
        rw [htake]
        exact hrest

/-- `fffs_backend_program_aligned` on any device. -/
theorem programAligned_tears (w : World) (off : Nat) (bs : List Byte) :
    Tears w off bs ((programAligned off bs).run w).2 := by
  rw [programAligned, bind_of_ok (run_get w)]
  dsimp only
  split
  · exact .refl w
  · split
    · exact backendProgram_tears w off bs
    · exact programChunks_tears

end Program

end Fastffs
