import Fastffs.Discovery
import Fastffs.Mount

/-!
# What a probe leads to on other flashes

A probe reads the headers at the multiples of its size and nothing else
(`probed_congr`).  A sequence that fills its ring is found again without its oldest
sector once that is dropped (`probed_finish`).
-/

namespace Fastffs

open Prog
open Nor (Mem Byte blank)

/-! ## What a probe reads -/

section Congr

variable {m m' : Mem} {n shift : Nat}

/-- The headers of one sector size are the same. -/
def SameHeaders (m m' : Mem) (shift : Nat) : Prop :=
  m'.size = m.size ∧ ∀ i, headerAt m' (i * sectorSizeOf shift) = headerAt m (i * sectorSizeOf shift)

theorem sequenceAt_congr (h : SameHeaders m m' shift) : sequenceAt m' n shift = sequenceAt m n shift := by
  have hscan : ∀ i, headerScan m' n shift i = headerScan m n shift i := by
    intro i
    induction i with
    | zero => rfl
    | succ i ih => rw [headerScan, headerScan, ih, h.2]
  rw [sequenceAt, sequenceAt, hscan]

theorem discovered_congr (h : SameHeaders m m' shift) (i : Nat) :
    discovered m' shift (i * sectorSizeOf shift) = discovered m shift (i * sectorSizeOf shift) := by
  rw [discovered, discovered, h.1, h.2]
  split
  · rfl
  · rcases headerAt m (i * sectorSizeOf shift) with _ | locked
    · rfl
    · dsimp only
      rw [sequenceAt_congr h]

theorem probed_congr (h : SameHeaders m m' shift) : probed m' shift = probed m shift := by
  have h0 := discovered_congr h 0
  have h1 := discovered_congr h 1
  rw [Nat.zero_mul] at h0
  rw [Nat.one_mul] at h1
  rw [probed, probed, h0, h1]

/-- Bytes behind the headers do not matter. -/
theorem SameHeaders.ofGet (hsize : m'.size = m.size)
    (hget : ∀ i, i % sectorSizeOf shift < headerSize → Nor.get m' i = Nor.get m i) :
    SameHeaders m m' shift := by
  refine ⟨hsize, fun i => ?_⟩
  rw [headerAt, headerAt, Nor.read_congr]
  intro a ha1 ha2
  apply hget
  have hS := sectorSizeOf_ge shift
  have hmod : a % sectorSizeOf shift = a - i * sectorSizeOf shift := by
    rw [← Nat.sub_mul_mod (k := i) (by rw [Nat.mul_comm]; exact ha1), Nat.mul_comm]
    rw [headerSize] at ha2
    exact Nat.mod_eq_of_lt (by omega)
  omega

end Congr

/-! ## A sequence that fills its ring -/

section Full

variable {m : Mem} {seq : IndexSequence}

/-- The ring of a sequence without its oldest sector. -/
theorem IndexSequence.ring_finish (hold : seq.oldestSector < seq.indexSectors) (hfull : seq.full = true) :
    seq.finish.ring = seq.ring.drop := by
  have hmod : (seq.oldestSector + 1) % seq.indexSectors =
      if seq.oldestSector + 1 = seq.indexSectors then 0 else seq.oldestSector + 1 := by
    split
    · next heq => rw [heq, Nat.mod_self]
    · exact Nat.mod_eq_of_lt (by omega)
  rw [finish, if_pos hfull]
  exact congrArg (fun o => IndexRing.mk _ o _ _) hmod

/-- Every index sector is in a sequence that fills the ring. -/
theorem Found.headersOf_place (hf : Found m seq) (hfull : seq.full = true) :
    ∀ i < seq.indexSectors, seq.ring.place i < seq.ring.count := by
  intro i hi
  have hge : seq.ring.sectors ≤ seq.ring.count := IndexSequence.full_iff.mp hfull
  have hold := hf.wf.oldest_lt
  have hi' : i < seq.ring.sectors := hi
  rcases seq.ring.place_cases i with h | h <;> omega

/-- Every index sector has a header then. -/
theorem Found.headersOf (hf : Found m seq) (hfull : seq.full = true) :
    HeadersOf m seq.ring seq.sectorShift := by
  intro i hi
  have hplace := hf.headersOf_place hfull i hi
  rw [IndexRing.serialAt_of_lt hplace, Option.map_some]
  exact hf.headers i hi hplace

/-- A probe that finds a sequence that fills its ring, finds it in order. -/
theorem probed_ordered (h : probed m seq.sectorShift = some seq) (hfull : seq.full = true) :
    seq.ring.Ordered := by
  by_contra hord
  have hf := (probed_found h).1
  obtain ⟨seq', hseq', hne⟩ := hf.wf.found_unordered hord seq.sectorShift
  have hat := probed_sequenceAt h
  have hring := (hf.headersOf hfull).sequenceAt_eq
  have heq : some seq = some seq' := hat.symm.trans (hring.trans hseq')
  rw [Option.some.injEq] at heq
  rw [← heq] at hne
  exact hne hf.active_eq

/-- A sequence that filled its ring is found without its oldest sector, once that is
dropped. -/
theorem probed_finish {m' : Mem} (h : probed m seq.sectorShift = some seq) (hfull : seq.full = true)
    (hsize : m'.size = m.size)
    (htomb : headerAt m' (seq.oldestSector * sectorSizeOf seq.sectorShift) = none)
    (hsame : ∀ i < seq.indexSectors, i ≠ seq.oldestSector →
      headerAt m' (i * sectorSizeOf seq.sectorShift) = headerAt m (i * sectorSizeOf seq.sectorShift)) :
    probed m' seq.sectorShift = some seq.finish := by
  have hf := (probed_found h).1
  have hord := probed_ordered h hfull
  have hwf := hf.wf
  have hsectors : 2 ≤ seq.indexSectors := hwf.sectors_ge
  have hcount : seq.count = seq.indexSectors :=
    Nat.le_antisymm hwf.count_le (IndexSequence.full_iff.mp hfull)
  have hge : 2 ≤ seq.ring.count := by
    change 2 ≤ seq.count
    omega
  have hold : seq.oldestSector < seq.indexSectors := hwf.oldest_lt
  have hring := IndexSequence.ring_finish hold hfull
  have hdrop := hwf.drop hge
  have hheaders : HeadersOf m' seq.ring.drop seq.sectorShift := by
    intro i hi
    rw [hwf.serialAt_drop hge hi]
    by_cases hio : i = seq.ring.oldest
    · rw [if_pos hio, hio]
      exact htomb
    · rw [if_neg hio]
      exact (hsame i hi hio).trans (hf.headersOf hfull i hi)
  have hplace : ∀ i < seq.ring.sectors, i ≠ seq.ring.oldest → seq.ring.drop.place i < seq.ring.drop.count := by
    intro i hi hio
    have hrc : seq.ring.count = seq.ring.sectors := hcount
    have hold' : seq.ring.oldest < seq.ring.sectors := hold
    rw [hwf.place_drop hi, if_neg hio, IndexRing.drop_count]
    rcases seq.ring.place_cases i with h' | h' <;> omega
  have hloc : seq.ring.drop.place 0 < seq.ring.drop.count ∨ seq.ring.drop.place 1 < seq.ring.drop.count := by
    by_cases h0 : seq.ring.oldest = 0
    · exact .inr (hplace 1 (show 1 < seq.indexSectors by omega) (by omega))
    · exact .inl (hplace 0 (show 0 < seq.indexSectors by omega) (Ne.symm h0))
  have hdropOrd : seq.ring.drop.Ordered := by
    have hc : seq.ring.count = seq.ring.sectors := hcount
    rcases hord with hord | hord
    · left
      rw [IndexRing.drop_oldest, IndexRing.drop_count, IndexRing.drop_sectors]
      split <;> omega
    · right
      rw [IndexRing.drop_count]
      omega
  have hfits : seq.ring.drop.sectors * sectorSizeOf seq.sectorShift ≤ m'.size := by
    rw [hsize]
    exact hf.fits
  rw [hheaders.probed_eq hdrop hfits hloc, hdrop.found_ordered hdropOrd, ← hring, hf.finish.2.symm]
  congr 1
  rw [IndexSequence.finish, if_pos hfull]
  rfl

end Full

end Fastffs
