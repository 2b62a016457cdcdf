import Fastffs.Reads

/-!
# What a program and an erase do to the flash

A call that succeeds has changed the bytes it names and nothing else, whatever
the plan of the device was.  On a device that never fails every call inside the
chip succeeds.
-/

namespace Fastffs

open Prog
open Nor (Mem Byte blank)

variable {w w' : World} {off n : Nat} {bs : List Byte}

/-- The world with other flash contents.  Some answers of the plan are used up. -/
def World.withMem (w : World) (m : Mem) (plan : List Fault) : World :=
  { w with dev := { w.dev with mem := m, plan := plan } }

/-- `w'` is `w` with the flash contents `m`. -/
def World.Becomes (w : World) (m : Mem) (w' : World) : Prop :=
  ∃ plan, w' = w.withMem m plan ∧ (w.dev.plan = [] → plan = [])

theorem World.Becomes.trans {m m' : Mem} {w'' : World} (h : w.Becomes m w')
    (h' : w'.Becomes m' w'') : w.Becomes m' w'' := by
  obtain ⟨plan, rfl, hplan⟩ := h
  obtain ⟨plan', rfl, hplan'⟩ := h'
  exact ⟨plan', rfl, fun hw => hplan' (hplan hw)⟩

theorem World.Becomes.refl (w : World) : w.Becomes w.dev.mem w := ⟨w.dev.plan, rfl, id⟩

theorem World.Becomes.mem {m : Mem} (h : w.Becomes m w') : w'.dev.mem = m := by
  obtain ⟨plan, rfl, -⟩ := h
  rfl

theorem World.Becomes.fs {m : Mem} (h : w.Becomes m w') : w'.fs = w.fs := by
  obtain ⟨plan, rfl, -⟩ := h
  rfl

theorem nextPlan_nil {plan : List Fault} (h : plan = []) : Device.nextPlan plan = [] := by
  rw [h]
  rfl

theorem Device.program_ok {d d' : Device} (h : d.program off bs = (true, d')) :
    d' = { d with mem := Nor.program d.mem off bs, plan := nextPlan d.plan } ∧
      off + bs.length ≤ d.size := by
  unfold Device.program at h
  dsimp only at h
  split at h
  · next hle =>
    refine ⟨?_, hle⟩
    rcases hp : d.plan with _ | ⟨f, rest⟩
    · simp only [hp, Prod.mk.injEq, true_and] at h
      exact h.symm
    · cases f <;> simp_all
  · simp at h

theorem Device.erase_ok {d d' : Device} (h : d.erase off n = (true, d')) :
    d' = { d with mem := Nor.erase d.mem off n, plan := nextPlan d.plan } ∧ off + n ≤ d.size := by
  unfold Device.erase at h
  dsimp only at h
  split at h
  · next hle =>
    refine ⟨?_, hle⟩
    rcases hp : d.plan with _ | ⟨f, rest⟩
    · simp only [hp, Prod.mk.injEq, true_and] at h
      exact h.symm
    · cases f <;> simp_all
  · simp at h

/-- A read inside the chip, on a device that never fails. -/
theorem flashRead_run {off n : Nat} (hplan : w.dev.plan = []) (hle : off + n ≤ w.dev.size) :
    (flashRead off n).run w = (.ok (Nor.read w.dev.mem off n), w) := by
  have hread : w.dev.read off n = (some (Nor.read w.dev.mem off n), w.dev) := by
    have hsnd := Device.read_snd w.dev off n
    rw [Device.advance_of_plan hplan] at hsnd
    refine Prod.ext ?_ hsnd
    simp only [Device.read, hplan]
    rw [if_pos (show off + n ≤ w.dev.mem.size from hle)]
  simp only [flashRead, hread]

/-- A read outside the chip. -/
theorem flashRead_outside {off n : Nat} (hplan : w.dev.plan = []) (h : ¬ off + n ≤ w.dev.mem.size) :
    (flashRead off n).run w = (.error .io, w) := by
  have hread : w.dev.read off n = (none, w.dev) := by
    have hsnd := Device.read_snd w.dev off n
    rw [Device.advance_of_plan hplan] at hsnd
    refine Prod.ext ?_ hsnd
    simp only [Device.read, hplan]
    rw [if_neg h]
  simp only [flashRead, hread]

/-- One call of `backend->program`. -/
theorem backendProgram_ok (h : (backendProgram off bs).run w = (.ok (), w')) :
    w.Becomes (Nor.program w.dev.mem off bs) w' := by
  simp only [backendProgram] at h
  split at h
  · next d hd =>
    obtain ⟨rfl, -⟩ := Device.program_ok hd
    simp only [Prod.mk.injEq, true_and] at h
    exact ⟨_, h.symm, nextPlan_nil⟩
  · simp at h

/-- One call of `backend->erase`. -/
theorem backendErase_ok (h : (backendErase off n).run w = (.ok (), w')) :
    w.Becomes (Nor.erase w.dev.mem off n) w' ∧ off + n ≤ w.dev.size := by
  simp only [backendErase] at h
  split at h
  · next d hd =>
    obtain ⟨rfl, hle⟩ := Device.erase_ok hd
    simp only [Prod.mk.injEq, true_and] at h
    exact ⟨⟨_, h.symm, nextPlan_nil⟩, hle⟩
  · simp at h

theorem programChunks_ok {granule fuel pos : Nat} (hg : 0 < granule) (hfuel : bs.length ≤ fuel)
    (h : (programChunks granule fuel pos bs).run w = (.ok (), w')) :
    w.Becomes (Nor.program w.dev.mem pos bs) w' := by
  induction fuel generalizing pos bs w with
  | zero =>
    have hbs : bs = [] := List.eq_nil_of_length_eq_zero (by omega)
    simp only [programChunks, run_pure, Prod.mk.injEq, true_and] at h
    subst h hbs
    exact (Nor.program_blanks w.dev.mem pos 0).symm ▸ World.Becomes.refl w
  | succ fuel ih =>
    unfold programChunks at h
    split at h
    · next hnil =>
      have hbs : bs = [] := List.isEmpty_iff.mp hnil
      simp only [run_pure, Prod.mk.injEq, true_and] at h
      subst h hbs
      exact (Nor.program_blanks w.dev.mem pos 0).symm ▸ World.Becomes.refl w
    · next hne =>
      have hpos : 0 < bs.length := by
        rw [List.length_pos_iff]
        exact fun hnil => hne (List.isEmpty_iff.mpr hnil)
      have hmod := Nat.mod_lt pos hg
      have hle := Nat.mod_le pos granule
      obtain ⟨_, w1, hrun, hrest⟩ := bind_ok h
      have h1 := backendProgram_ok hrun
      rw [Nor.program_padded, Nat.add_sub_cancel' (Nat.sub_le ..)] at h1
      generalize hn : min (granule - (pos - (pos - pos % granule))) bs.length = k at h1 hrest
      have hk : 0 < k ∧ k ≤ bs.length := by omega
      have h2 := ih (by simp only [List.length_drop]; omega) hrest
      rw [h1.mem] at h2
      have htake : (bs.take k).length = k := by simp only [List.length_take]; omega
      have hall := Nor.program_append w.dev.mem pos (bs.take k) (bs.drop k)
      rw [List.take_append_drop, htake] at hall
      exact hall ▸ h1.trans h2

/-- One call of `backend->program` inside the chip, on a device that never fails. -/
theorem backendProgram_run (hplan : w.dev.plan = []) (hle : off + bs.length ≤ w.dev.size) :
    (backendProgram off bs).run w = (.ok (), w.withMem (Nor.program w.dev.mem off bs) []) := by
  have hprog : w.dev.program off bs =
      (true, { w.dev with mem := Nor.program w.dev.mem off bs, plan := [] }) := by
    simp only [Device.program, hplan, Device.nextPlan]
    rw [if_pos (show off + bs.length ≤ w.dev.mem.size from hle)]
  simp only [backendProgram, hprog]
  rfl

/-- Programming nothing. -/
theorem World.withMem_nil (hplan : w.dev.plan = []) :
    w.withMem (Nor.program w.dev.mem off []) [] = w := by
  rw [show Nor.program w.dev.mem off [] = w.dev.mem from Nor.program_blanks w.dev.mem off 0,
    World.withMem, ← hplan]

/-- The granule of a byte inside the chip lies inside the chip. -/
theorem granule_fits {granule pos size : Nat} (hsize : size % granule = 0)
    (hpos : pos < size) : pos - pos % granule + granule ≤ size := by
  obtain ⟨k, rfl⟩ := Nat.dvd_of_mod_eq_zero hsize
  have hdiv : pos / granule < k := Nat.div_lt_of_lt_mul hpos
  have hmul : granule * (pos / granule + 1) ≤ granule * k := Nat.mul_le_mul_left _ hdiv
  have hbase := Nat.div_add_mod pos granule
  rw [Nat.mul_add, Nat.mul_one] at hmul
  omega

/-- The padded loop inside the chip. -/
theorem programChunks_run {granule fuel pos : Nat} (hplan : w.dev.plan = []) (hg : 0 < granule)
    (hsize : w.dev.size % granule = 0) (hle : pos + bs.length ≤ w.dev.size)
    (hfuel : bs.length ≤ fuel) :
    (programChunks granule fuel pos bs).run w =
      (.ok (), w.withMem (Nor.program w.dev.mem pos bs) []) := by
  induction fuel generalizing w pos bs with
  | zero =>
    obtain rfl : bs = [] := List.length_eq_zero_iff.mp (by omega)
    rw [programChunks, run_pure, World.withMem_nil hplan]
  | succ fuel ih =>
    rw [programChunks]
    by_cases hempty : bs.isEmpty = true
    · obtain rfl := List.isEmpty_iff.mp hempty
      rw [if_pos hempty, run_pure, World.withMem_nil hplan]
    · have hpos : 0 < bs.length := by
        rw [List.length_pos_iff]
        exact fun hnil => hempty (List.isEmpty_iff.mpr hnil)
      have hmod := Nat.mod_lt pos hg
      have hmodle := Nat.mod_le pos granule
      have hfits := granule_fits hsize (show pos < w.dev.size by omega)
      rw [if_neg hempty]
      dsimp only
      generalize hn : min (granule - (pos - (pos - pos % granule))) bs.length = k
      have hk : 0 < k ∧ k ≤ bs.length ∧ pos - (pos - pos % granule) + k ≤ granule := by omega
      have hlen : (List.replicate (pos - (pos - pos % granule)) blank ++ bs.take k ++
          List.replicate (granule - (pos - (pos - pos % granule)) - k) blank).length = granule := by
        simp only [List.length_append, List.length_replicate, List.length_take]
        omega
      rw [bind_of_ok (backendProgram_run hplan (by rw [hlen]; exact hfits)), Nor.program_padded,
        Nat.add_sub_cancel' (Nat.sub_le ..)]
      have htake : (bs.take k).length = k := by simp only [List.length_take]; omega
      have hall := Nor.program_append w.dev.mem pos (bs.take k) (bs.drop k)
      rw [List.take_append_drop, htake] at hall
      rw [ih (w := w.withMem (Nor.program w.dev.mem pos (bs.take k)) []) rfl hsize
        (by simp only [List.length_drop]; exact (show pos + k + (bs.length - k) ≤ w.dev.size by omega))
        (by simp only [List.length_drop]; omega)]
      exact congrArg (fun m => (Except.ok (), w.withMem m [])) hall

/-- `fffs_backend_program_aligned` inside the chip, on a device that never fails. -/
theorem programAligned_run (hplan : w.dev.plan = []) (hg : 0 < w.dev.programGranule)
    (hsize : w.dev.size % w.dev.programGranule = 0) (hle : off + bs.length ≤ w.dev.size) :
    (programAligned off bs).run w = (.ok (), w.withMem (Nor.program w.dev.mem off bs) []) := by
  rw [programAligned, bind_of_ok (run_get w)]
  dsimp only
  split
  · next hempty =>
    obtain rfl := List.isEmpty_iff.mp hempty
    rw [run_pure, World.withMem_nil hplan]
  · split
    · exact backendProgram_run hplan hle
    · exact programChunks_run hplan hg hsize hle le_rfl

/-- `fffs_backend_program_aligned`. -/
theorem programAligned_ok (hg : 0 < w.dev.programGranule)
    (h : (programAligned off bs).run w = (.ok (), w')) :
    w.Becomes (Nor.program w.dev.mem off bs) w' := by
  unfold programAligned at h
  simp only [run_bind, run_get] at h
  split at h
  · next hnil =>
    have hbs : bs = [] := List.isEmpty_iff.mp hnil
    simp only [run_pure, Prod.mk.injEq, true_and] at h
    subst h hbs
    exact (Nor.program_blanks w.dev.mem off 0).symm ▸ World.Becomes.refl w
  · split at h
    · exact backendProgram_ok h
    · exact programChunks_ok hg le_rfl h

end Fastffs
