import Fastffs.Headers
import Fastffs.IndexRing
import Fastffs.Run

/-!
# Discovery finds the running sequence

`fffs_find_index_sequence` on the flash of a running file system.  It tries the
sector sizes in a fixed order, and for each one it reads two places: the start of
the flash and the start of the second sector.  The first size that leads to a
sequence is taken for the real one (`findSequence_iff`).

So discovery returns the running sequence when no earlier size leads to a sequence,
when one of the first two index sectors is in the sequence, and when the sequence is
ordered (`IndexRing.Ordered`).
-/

namespace Fastffs

open Prog
open Nor (Mem Byte blank)

variable {v w w' : World}

/-! ## The headers of a ring -/

/-- The serials of the sectors of a ring. -/
def IndexRing.serials (r : IndexRing) (n : Nat) : List (Option Nat) := (List.range n).map r.serialAt

theorem IndexRing.serials_succ (r : IndexRing) (n : Nat) :
    r.serials (n + 1) = r.serials n ++ [r.serialAt n] := by
  simp [serials, List.range_succ]

/-- The flash holds the headers of a ring, and no other index header in its sectors. -/
def HeadersOf (m : Mem) (r : IndexRing) (shift : Nat) : Prop :=
  ∀ i < r.sectors, headerAt m (i * sectorSizeOf shift) =
    (r.serialAt i).map fun serial => ⟨r.sectors, shift, serial⟩

theorem Ring.headersOf (hr : Ring False w) : HeadersOf w.dev.mem w.fs.ring w.fs.sectorShift :=
  fun i hi => hr.sectorSize_eq ▸ hr.headers i hi False.elim

/-! ## The probes -/

/-- The turn of a shift in the order of `discovery_probe_shift`. -/
def probeTurn (shift : Nat) : Nat :=
  if shift ≤ defaultSectorShift then defaultSectorShift - shift else shift

theorem probeTurn_le {shift : Nat} (h : shift ≤ maxSectorShift) : probeTurn shift ≤ maxSectorShift := by
  unfold probeTurn
  split
  · exact (Nat.sub_le ..).trans (by decide)
  · exact h

theorem discoveryProbeShift_probeTurn {shift : Nat} (h : shift ≤ maxSectorShift) :
    discoveryProbeShift (probeTurn shift) = some shift := by
  rw [maxSectorShift] at h
  interval_cases shift <;> decide

theorem discoveryProbeShift_some {turn : Nat} (h : turn ≤ maxSectorShift) :
    ∃ shift ≤ maxSectorShift, discoveryProbeShift turn = some shift ∧ probeTurn shift = turn := by
  rw [maxSectorShift] at h
  interval_cases turn <;> exact ⟨_, by decide, rfl, by decide⟩

/-- A size that is probed before another is smaller than it, or small. -/
theorem sectorSizeOf_of_probeTurn_lt {s : Nat} (shift : Nat) (h : probeTurn s < probeTurn shift) :
    sectorSizeOf s + headerSize ≤ max (sectorSizeOf shift) 8192 := by
  by_cases hs : s ≤ defaultSectorShift
  · have hpow : 2 ^ s ≤ 2 ^ 4 := Nat.pow_le_pow_right (by decide) hs
    simp only [sectorSizeOf, headerSize]
    omega
  · have hlt : s < shift := by
      unfold probeTurn at h
      rw [if_neg hs] at h
      split at h <;> omega
    have hpow : 2 ^ (s + 1) ≤ 2 ^ shift := Nat.pow_le_pow_right (by decide) hlt
    have hpos := Nat.two_pow_pos s
    rw [Nat.pow_succ] at hpow
    simp only [sectorSizeOf, headerSize]
    omega

/-- What the probe of one sector size leads to. -/
def probed (m : Mem) (shift : Nat) : Option IndexSequence :=
  (discovered m shift 0).or (discovered m shift (sectorSizeOf shift))

/-- No size that is probed before `shift` leads to a sequence. -/
def noEarlierSequence (m : Mem) (shift : Nat) : Prop :=
  ∀ s ≤ maxSectorShift, probeTurn s < probeTurn shift → m.size % sectorSizeOf s = 0 →
    probed m s = none

instance (m : Mem) (shift : Nat) : Decidable (noEarlierSequence m shift) := by
  unfold noEarlierSequence; infer_instance

section Order

variable {m : Mem} {shift : Nat} {seq : IndexSequence}

theorem findSequenceFrom_succ {fuel turn : Nat} (h : discoveryProbeShift turn = some shift) :
    findSequenceFrom m (fuel + 1) turn =
      if m.size % sectorSizeOf shift = 0 then
        (probed m shift).or (findSequenceFrom m fuel (turn + 1))
      else findSequenceFrom m fuel (turn + 1) := by
  rw [findSequenceFrom, h]
  dsimp only
  by_cases hmod : m.size % sectorSizeOf shift = 0
  · rw [if_neg (not_not.mpr hmod), if_pos hmod, probed]
    cases discovered m shift 0 with
    | some s => rfl
    | none => cases discovered m shift (sectorSizeOf shift) <;> rfl
  · rw [if_pos hmod, if_neg hmod]

/-- The probes before the turn of `shift` are passed over. -/
theorem findSequence_skip (hno : noEarlierSequence m shift) (hshift : shift ≤ maxSectorShift)
    {turn : Nat} (hle : turn ≤ probeTurn shift) :
    findSequence m = findSequenceFrom m (maxSectorShift + 2 - turn) turn := by
  induction turn with
  | zero => rfl
  | succ turn ih =>
    have hmax := probeTurn_le hshift
    obtain ⟨s, hs, hprobe, hturn⟩ := discoveryProbeShift_some (show turn ≤ maxSectorShift by omega)
    rw [ih (by omega), show maxSectorShift + 2 - turn = maxSectorShift + 2 - (turn + 1) + 1 by omega,
      findSequenceFrom_succ hprobe]
    split
    · next hmod => rw [hno s hs (by omega) hmod, Option.none_or]
    · rfl

theorem probed_found (h : probed m shift = some seq) : Found m seq ∧ seq.sectorShift = shift := by
  rw [probed, Option.or_eq_some_iff] at h
  rcases h with h | ⟨-, h⟩
  · exact discovered_found h
  · exact discovered_found h

/-- What a probe sees of a sequence that it finds. -/
theorem probed_sequenceAt (h : probed m shift = some seq) :
    sequenceAt m seq.indexSectors shift = some seq := by
  have hat : ∀ off, discovered m shift off = some seq → sequenceAt m seq.indexSectors shift = some seq := by
    intro off hoff
    rw [discovered] at hoff
    split at hoff
    · simp at hoff
    · rcases hhdr : headerAt m off with _ | locked
      · simp [hhdr] at hoff
      · rw [hhdr] at hoff
        dsimp only at hoff
        split at hoff
        · simp at hoff
        · next hguard =>
          simp only [not_or, not_not, not_lt] at hguard
          obtain ⟨rfl, hle⟩ := hguard
          obtain ⟨h2, h15, hshift, -⟩ := validIndexHeader_some hhdr
          have hfits : locked.indexSectors * sectorSizeOf locked.sectorShift ≤ m.size :=
            (Nat.le_div_iff_mul_le (Nat.mul_pos (by decide) (Nat.two_pow_pos _))).mp hle
          rw [(sequenceAt_found h2 h15 hshift hfits hoff).2.1]
          exact hoff
  rw [probed, Option.or_eq_some_iff] at h
  rcases h with h | ⟨-, h⟩
  · exact hat _ h
  · exact hat _ h

/-- The probe whose turn it is, if the search starts there. -/
theorem findSequenceFrom_some {fuel turn : Nat} (h : findSequenceFrom m fuel turn = some seq)
    (hfuel : turn + fuel ≤ maxSectorShift + 2) :
    turn ≤ probeTurn seq.sectorShift ∧ seq.sectorShift ≤ maxSectorShift ∧
      m.size % sectorSizeOf seq.sectorShift = 0 ∧ probed m seq.sectorShift = some seq ∧
      ∀ s ≤ maxSectorShift, turn ≤ probeTurn s → probeTurn s < probeTurn seq.sectorShift →
        m.size % sectorSizeOf s = 0 → probed m s = none := by
  induction fuel generalizing turn with
  | zero => simp [findSequenceFrom] at h
  | succ fuel ih =>
    by_cases hmax : turn ≤ maxSectorShift
    · obtain ⟨shift, hshift, hprobe, hturn⟩ := discoveryProbeShift_some hmax
      -- the turn of a size is its own
      have hown : ∀ s ≤ maxSectorShift, probeTurn s = turn → s = shift := by
        intro s hs hst
        have hs' := discoveryProbeShift_probeTurn hs
        rw [hst, hprobe, Option.some.injEq] at hs'
        exact hs'.symm
      rw [findSequenceFrom_succ hprobe] at h
      by_cases hnone : m.size % sectorSizeOf shift = 0 → probed m shift = none
      · have hrest : findSequenceFrom m fuel (turn + 1) = some seq := by
          split at h
          · next hmod => rwa [hnone hmod, Option.none_or] at h
          · exact h
        obtain ⟨h1, h2, h3, h4, h5⟩ := ih hrest (by omega)
        refine ⟨by omega, h2, h3, h4, fun s hs hge hlt hmod => ?_⟩
        by_cases hst : probeTurn s = turn
        · rw [hown s hs hst] at hmod ⊢
          exact hnone hmod
        · exact h5 s hs (by omega) hlt hmod
      · rw [Classical.not_imp] at hnone
        obtain ⟨hmod, hsome⟩ := hnone
        obtain ⟨seq', hseq'⟩ := Option.ne_none_iff_exists'.mp hsome
        rw [if_pos hmod, hseq', Option.some_or, Option.some.injEq] at h
        subst h
        obtain ⟨-, rfl⟩ := probed_found hseq'
        exact ⟨hturn.ge, hshift, hmod, hseq', fun s hs hge hlt => by omega⟩
    · have hnone : discoveryProbeShift turn = none := by
        rw [maxSectorShift] at hmax hfuel
        obtain rfl : turn = 16 := by omega
        decide
      rw [findSequenceFrom, hnone] at h
      simp at h

/-- Discovery returns the sequence of the first size that leads to one. -/
theorem findSequence_iff :
    findSequence m = some seq ↔ seq.sectorShift ≤ maxSectorShift ∧
      m.size % sectorSizeOf seq.sectorShift = 0 ∧ noEarlierSequence m seq.sectorShift ∧
      probed m seq.sectorShift = some seq := by
  constructor
  · intro h
    obtain ⟨-, h2, h3, h4, h5⟩ := findSequenceFrom_some h (by omega)
    exact ⟨h2, h3, fun s hs hlt hmod => h5 s hs (Nat.zero_le _) hlt hmod, h4⟩
  · rintro ⟨hshift, hmod, hno, hprobed⟩
    have hmax := probeTurn_le hshift
    rw [findSequence_skip hno hshift le_rfl,
      show maxSectorShift + 2 - probeTurn seq.sectorShift =
        maxSectorShift + 1 - probeTurn seq.sectorShift + 1 by omega,
      findSequenceFrom_succ (discoveryProbeShift_probeTurn hshift), if_pos hmod, hprobed,
      Option.some_or]

end Order

/-! ## What discovery makes of a ring -/

/-- The sequence discovery makes of a ring. -/
def IndexRing.found (r : IndexRing) (shift : Nat) : Option IndexSequence :=
  (r.scanBest r.sectors).map fun best =>
    let oldest := findOldestIndexSector (r.serials r.sectors) r.sectors best.1 best.2
    ⟨r.sectors, shift, best.2, best.1, oldest.1, oldest.2⟩

section Headers

variable {m : Mem} {r : IndexRing} {shift : Nat}

theorem HeadersOf.headerScan_eq (h : HeadersOf m r shift) {i : Nat} (hi : i ≤ r.sectors) :
    headerScan m r.sectors shift i = some { serials := r.serials i, best := r.scanBest i } := by
  induction i with
  | zero => rfl
  | succ i ih =>
    rw [headerScan_succ (ih (by omega)), h i (by omega), IndexRing.serials_succ, IndexRing.scanBest]
    rcases r.serialAt i with _ | s
    · rfl
    · simp

theorem HeadersOf.sequenceAt_eq (h : HeadersOf m r shift) :
    sequenceAt m r.sectors shift = r.found shift := by
  rw [sequenceAt, h.headerScan_eq le_rfl, IndexRing.found]
  rcases r.scanBest r.sectors with _ | ⟨active, serial⟩ <;> rfl

/-- A probe of the right size that meets a header of the ring. -/
theorem HeadersOf.discovered_eq (h : HeadersOf m r shift)
    (hfits : r.sectors * sectorSizeOf shift ≤ m.size) {i : Nat} (hi : i < r.sectors) :
    discovered m shift (i * sectorSizeOf shift) =
      if r.place i < r.count then r.found shift else none := by
  have hS := sectorSizeOf_ge shift
  have hin : ¬ i * sectorSizeOf shift + headerSize > m.size := by
    have hmul := sector_mul_le (sectorSizeOf shift) hi
    rw [headerSize]
    omega
  have hsectors : ¬ m.size / sectorSizeOf shift < r.sectors := by
    rw [not_lt, Nat.le_div_iff_mul_le (by omega)]
    exact hfits
  rw [discovered, if_neg hin, h i hi]
  by_cases hp : r.place i < r.count
  · rw [IndexRing.serialAt_of_lt hp, if_pos hp, Option.map_some]
    dsimp only
    rw [if_neg (not_or.mpr ⟨not_not.mpr rfl, hsectors⟩), h.sequenceAt_eq]
  · rw [IndexRing.serialAt_of_ge (not_lt.mp hp), if_neg hp, Option.map_none]

/-- A ring with one of the first two sectors in it is found. -/
theorem HeadersOf.probed_eq (h : HeadersOf m r shift) (hwf : r.Wf)
    (hfits : r.sectors * sectorSizeOf shift ≤ m.size)
    (hloc : r.place 0 < r.count ∨ r.place 1 < r.count) : probed m shift = r.found shift := by
  have hge := hwf.sectors_ge
  have h0 := h.discovered_eq hfits (show 0 < r.sectors by omega)
  have h1 := h.discovered_eq hfits (show 1 < r.sectors by omega)
  rw [Nat.zero_mul] at h0
  rw [Nat.one_mul] at h1
  rw [probed, h0, h1]
  by_cases hp : r.place 0 < r.count
  · rw [if_pos hp]
    rcases hfound : r.found shift with _ | seq
    · split <;> rfl
    · rfl
  · rw [if_neg hp, if_pos (hloc.resolve_left hp), Option.none_or]

end Headers

/-- One of the two places a probe reads holds a header of the sequence. -/
def located (fs : Fs) : Prop :=
  fs.ring.place 0 < fs.indexSequenceCount ∨ fs.ring.place 1 < fs.indexSequenceCount

/-- The first sector of a ring is never a header of another size. -/
theorem Ring.discovered_first (hr : Ring False w) {shift : Nat} (hne : shift ≠ w.fs.sectorShift) :
    discovered w.dev.mem shift 0 = none := by
  rw [discovered]
  split
  · rfl
  · rcases hhdr : headerAt w.dev.mem 0 with _ | hdr
    · rfl
    · have h0 := hr.headersOf 0 (Nat.lt_of_lt_of_le (by decide) hr.wf.sectors_ge)
      rw [Nat.zero_mul, hhdr] at h0
      obtain ⟨serial, -, rfl⟩ := Option.map_eq_some_iff.mp h0.symm
      exact if_pos (.inl hne.symm)

theorem IndexRing.getD_serials (r : IndexRing) {n i : Nat} (hi : i < n) :
    (r.serials n).getD i none = r.serialAt i := by
  simp [serials, List.getD_eq_getElem?_getD, hi]

/-- An ordered sequence is found as it is. -/
theorem IndexRing.Wf.found_ordered {r : IndexRing} (h : r.Wf) (hord : r.Ordered) (shift : Nat) :
    r.found shift = some ⟨r.sectors, shift, r.serial, r.active, r.oldest, r.count⟩ := by
  have hpos := h.count_pos
  have hle := h.count_le
  have hold := h.findOldestLoop_eq (r.serials r.sectors)
    (fun j hj => r.getD_serials hj) (r.sectors - 1) (n := 1) h.active_lt h.place_active
    (by omega) (by omega) (by omega)
  rw [h.serialOf_last, Nat.add_sub_cancel' hpos] at hold
  rw [found, h.scanBest_ordered hord, Option.map_some]
  simp only [findOldestIndexSector, hold]

/-- A sequence that is not ordered is found with another active sector. -/
theorem IndexRing.Wf.found_unordered {r : IndexRing} (h : r.Wf) (hord : ¬ r.Ordered) (shift : Nat) :
    ∃ seq, r.found shift = some seq ∧ seq.activeSector ≠ r.active := by
  obtain ⟨i, s, hbest, hne⟩ := h.scanBest_unordered hord
  rw [found, hbest, Option.map_some]
  exact ⟨_, rfl, hne⟩

/-- Discovery reads the ring, when no earlier probe leads to a sequence. -/
theorem Ring.findSequence_eq (hr : Ring False w) (hloc : located w.fs)
    (hno : noEarlierSequence w.dev.mem w.fs.sectorShift) {seq : IndexSequence}
    (hseq : w.fs.ring.found w.fs.sectorShift = some seq) : findSequence w.dev.mem = some seq := by
  have hshift : seq.sectorShift = w.fs.sectorShift := by
    obtain ⟨best, -, rfl⟩ := Option.map_eq_some_iff.mp hseq
    rfl
  have hfits : w.fs.ring.sectors * sectorSizeOf w.fs.sectorShift ≤ w.dev.mem.size :=
    hr.sectorSize_eq ▸ hr.fits
  have haligned : w.dev.mem.size % sectorSizeOf w.fs.sectorShift = 0 := hr.sectorSize_eq ▸ hr.aligned
  have hprobed := hr.headersOf.probed_eq hr.wf hfits hloc
  rw [hseq] at hprobed
  rw [← hshift] at haligned hno hprobed
  exact findSequence_iff.mpr ⟨hshift ▸ hr.shift_le, haligned, hno, hprobed⟩

theorem Ring.findIndexSequence_run (hr : Ring False w) (hplan : v.dev.plan = []) (hmem : v.dev.mem = w.dev.mem)
    (hloc : located w.fs) (hno : noEarlierSequence w.dev.mem w.fs.sectorShift) {seq : IndexSequence}
    (hseq : w.fs.ring.found w.fs.sectorShift = some seq) : findIndexSequence.run v = (.ok seq, v) := by
  rw [findIndexSequence_findSequence hplan, hmem, hr.findSequence_eq hloc hno hseq]

/-- Discovery on the flash of `w` returns the running sequence of `w`. -/
def discovers (w : World) : Prop :=
  ∃ seq, (findIndexSequence.run (w.withMem w.dev.mem [])).1 = .ok seq ∧
    seq.activeSector = w.fs.activeIndexSector ∧ seq.activeSerial = w.fs.activeIndexSerial ∧
    seq.oldestSector = w.fs.oldestIndexSector ∧ seq.count = w.fs.indexSequenceCount

theorem RingFree.discovers_iff (hr : RingFree w) (hloc : located w.fs)
    (hno : noEarlierSequence w.dev.mem w.fs.sectorShift) : discovers w ↔ w.fs.ring.Ordered := by
  have hrun : ∀ {seq}, w.fs.ring.found w.fs.sectorShift = some seq →
      (findIndexSequence.run (w.withMem w.dev.mem [])).1 = .ok seq := fun hseq =>
    congrArg Prod.fst
      (hr.toRing.findIndexSequence_run (v := w.withMem w.dev.mem []) rfl rfl hloc hno hseq)
  constructor
  · rintro ⟨seq, hseq, hactive, -⟩
    by_contra hord
    obtain ⟨seq', hfound, hne⟩ := hr.wf.found_unordered hord w.fs.sectorShift
    rw [hrun hfound, Except.ok.injEq] at hseq
    rw [hseq, hactive, hr.active_eq] at hne
    exact hne rfl
  · intro hord
    exact ⟨_, hrun (hr.wf.found_ordered hord w.fs.sectorShift), hr.active_eq.symm, rfl,
      rfl, rfl⟩

/-! ## A fresh flash -/

/-- What `fffs_format` leaves: one header, and blank bytes after it. -/
structure Formatted (d : Device) (indexSectors shift : Nat) : Prop where
  sectors_ge : 2 ≤ indexSectors
  sectors_le : indexSectors ≤ 15
  shift_le : shift ≤ maxSectorShift
  aligned : d.size % sectorSizeOf shift = 0
  fits : indexSectors * sectorSizeOf shift ≤ d.size
  granule_pos : 0 < d.programGranule
  header : validIndexHeader (Nor.read d.mem 0 headerSize) = some ⟨indexSectors, shift, 0⟩
  blank_after : ∀ a, headerSize ≤ a →
    a < min (max (max (sectorSizeOf shift) 8192) (sectorSizeOf shift * indexSectors)) d.size →
    Nor.get d.mem a = blank

theorem formatSectorShift_le {size shift : Nat} (h : formatSectorShift size = some shift) :
    shift ≤ maxSectorShift := by
  have hmem := List.mem_of_find?_eq_some h
  rw [List.mem_range] at hmem
  omega

/-- The number of index sectors that `fffs_format` takes. -/
def FormatOptions.sectors (options : FormatOptions) : Nat :=
  if options.indexSectors ≠ 0 then options.indexSectors else defaultIndexSectors

/-- What `fffs_format` has checked when it returns, and the flash it leaves. -/
theorem format_becomes {options : FormatOptions} (h : (format options).run w = (.ok (), w')) :
    ∃ shift, formatSectorShift options.sectorSize = some shift ∧ validBackend w.dev = true ∧
      2 ≤ options.sectors ∧ options.sectors ≤ 15 ∧ w.dev.size % sectorSizeOf shift = 0 ∧
      options.sectors ≤ w.dev.size / sectorSizeOf shift ∧
      w.dev.size / sectorSizeOf shift ≤ uint16Max ∧
      w.Becomes (Nor.program (Nor.program (Nor.erase w.dev.mem 0
          (min (max (max (sectorSizeOf shift) 8192) (sectorSizeOf shift * options.sectors)) w.dev.size))
          0 (encodeIndexHeader options.sectors shift 0)) (0 + 7) [indexFlagsValid]) w' := by
  rw [format, bind_of_ok (run_get w)] at h
  dsimp only at h
  rw [FormatOptions.sectors]
  generalize (if options.indexSectors ≠ 0 then options.indexSectors else defaultIndexSectors) = n at h ⊢
  split at h
  · simp at h
  · next shift hshift =>
    split at h
    · simp at h
    · next hguard =>
      simp only [not_or, Bool.not_eq_false, not_lt, ne_eq, not_not] at hguard
      obtain ⟨hvalid, hge, hle, hmod, hcount, hsmall⟩ := hguard
      have hg : 0 < w.dev.programGranule := by
        simp only [validBackend, Bool.and_eq_true, bne_iff_ne] at hvalid
        omega
      obtain ⟨_, w1, herase, h1⟩ := bind_ok h
      obtain ⟨hb1, -⟩ := backendErase_ok herase
      obtain ⟨_, w2, hbody, hflags⟩ := bind_ok h1
      have hb2 := programAligned_ok (by obtain ⟨plan, rfl, -⟩ := hb1; exact hg) hbody
      have hb3 := programAligned_ok (by
        obtain ⟨plan, rfl, -⟩ := hb1; obtain ⟨plan, rfl, -⟩ := hb2; exact hg) hflags
      rw [hb1.mem] at hb2
      rw [hb2.mem] at hb3
      exact ⟨shift, hshift, hvalid, hge, hle, hmod, hcount, hsmall, (hb1.trans hb2).trans hb3⟩

/-- `fffs_format`. -/
theorem format_formatted {options : FormatOptions} (h : (format options).run w = (.ok (), w')) :
    ∃ shift, formatSectorShift options.sectorSize = some shift ∧ Formatted w'.dev options.sectors shift ∧
      (w.dev.plan = [] → w'.dev.plan = []) := by
  obtain ⟨shift, hshift, hvalid, hge, hle, hmod, hcount, -, hbecomes⟩ := format_becomes h
  generalize options.sectors = n at hge hle hcount hbecomes ⊢
  have hg : 0 < w.dev.programGranule := by
    simp only [validBackend, Bool.and_eq_true, bne_iff_ne] at hvalid
    omega
  generalize hN : min (max (max (sectorSizeOf shift) 8192) (sectorSizeOf shift * n)) w.dev.size = N
    at hbecomes
  have hS := sectorSizeOf_ge shift
  have hfits : n * sectorSizeOf shift ≤ w.dev.size :=
    (Nat.le_div_iff_mul_le (by omega)).mp hcount
  have hblank : ∀ a < N, Nor.get (Nor.erase w.dev.mem 0 N) a = blank := by
    intro a ha
    rw [Nor.get_erase, if_pos (by omega)]
  have hread : Nor.read (Nor.erase w.dev.mem 0 N) 0 headerSize =
      List.replicate headerSize blank := by
    refine Nor.read_eq_blanks fun a _ ha => hblank a ?_
    simp only [headerSize, Nat.zero_add] at ha
    have hmul : 2 * sectorSizeOf shift ≤ n * sectorSizeOf shift := Nat.mul_le_mul_right _ hge
    omega
  obtain ⟨plan, rfl, hplan⟩ := hbecomes
  have hsize : (Nor.program (Nor.program (Nor.erase w.dev.mem 0 N) 0
      (encodeIndexHeader n shift 0)) (0 + 7) [indexFlagsValid]).size = w.dev.size := by
    rw [Nor.size_program, Nor.size_program, Nor.size_erase]
    rfl
  refine ⟨shift, hshift, ?_, hplan⟩
  exact {
    sectors_ge := hge
    sectors_le := hle
    shift_le := formatSectorShift_le hshift
    aligned := by rw [World.withMem, Device.size, hsize]; exact hmod
    fits := by rw [World.withMem, Device.size, hsize]; exact hfits
    granule_pos := hg
    header := by
      refine (congrArg validIndexHeader (read_programIndexHeader _ _ _ hread)).trans ?_
      exact validIndexHeader_encode hge hle (formatSectorShift_le hshift) (by decide)
    blank_after := by
      intro a h8 ha
      rw [World.withMem, Device.size, hsize] at ha
      change Nor.get (Nor.program _ (0 + 7) [indexFlagsValid]) a = blank
      rw [Nor.get_program_of_notMem, Nor.get_program_of_notMem]
      · exact hblank a (by rw [← hN]; exact ha)
      · simp only [encodeIndexHeader, indexMagic, headerSize, List.length_append,
          List.length_cons, List.length_nil] at h8 ⊢
        omega
      · simp only [headerSize, List.length_cons, List.length_nil] at h8 ⊢
        omega }

/-- A format keeps the size and the granule of the device. -/
theorem format_accepts {options : FormatOptions} (h : (format options).run w = (.ok (), w')) {shift : Nat}
    (hshift : formatSectorShift options.sectorSize = some shift) :
    validBackend w'.dev = true ∧ w'.dev.size / sectorSizeOf shift ≤ uint16Max := by
  obtain ⟨shift', hshift', hvalid, -, -, -, -, hsmall, plan, rfl, -⟩ := format_becomes h
  rw [hshift, Option.some.injEq] at hshift'
  subst hshift'
  have hsize : ∀ m : Mem, m.size = w.dev.mem.size → validBackend (w.withMem m plan).dev = true ∧
      (w.withMem m plan).dev.size / sectorSizeOf shift ≤ uint16Max := by
    intro m hm
    rw [validBackend, Device.size, World.withMem, hm]
    exact ⟨hvalid, hsmall⟩
  exact hsize _ (by rw [Nor.size_program, Nor.size_program, Nor.size_erase])

/-- The size that a format asks for. -/
def FormatOptions.size (options : FormatOptions) : Nat :=
  if options.sectorSize = 0 then sectorSizeOf defaultSectorShift else options.sectorSize

theorem formatSectorShift_size {options : FormatOptions} {shift : Nat}
    (h : formatSectorShift options.sectorSize = some shift) : sectorSizeOf shift = options.size := by
  rw [formatSectorShift] at h
  have hsize := List.find?_some h
  rwa [beq_iff_eq] at hsize

/-- The sequence of a fresh flash. -/
def freshSequence (n shift : Nat) : IndexSequence where
  indexSectors := n
  sectorShift := shift
  activeSerial := 0
  activeSector := 0
  oldestSector := 0
  count := 1

theorem validIndexHeader_blank :
    validIndexHeader (List.replicate headerSize blank) = none := by decide

section Mount

variable {n shift : Nat} {o : MountOptions}

/-- A fresh flash holds the ring of its sequence. -/
theorem Formatted.ringFree (hf : Formatted w.dev n shift)
    (hfs : w.fs = mountedFs w.dev.size o (freshSequence n shift)) : RingFree w := by
  have hS := sectorSizeOf_ge shift
  have hge := hf.sectors_ge
  have hring : w.fs.ring = .fresh n := by rw [hfs]; rfl
  have hsize : w.fs.sectorSize = sectorSizeOf shift := by rw [hfs]; rfl
  have hn : w.fs.indexSectors = n := by rw [hfs]; rfl
  have hact : w.fs.activeIndexSector = 0 := by rw [hfs]; rfl
  have hshift : w.fs.sectorShift = shift := by rw [hfs]; rfl
  have hnext : w.fs.nextIndexOffset = 0 * sectorSizeOf shift + headerSize := by rw [hfs]; rfl
  exact {
    wf := by rw [hring]; exact IndexRing.fresh_wf hge hf.sectors_le
    active_eq := by rw [hring, hact, IndexRing.active_fresh hge]
    shift_le := hshift ▸ hf.shift_le
    sectorSize_eq := by rw [hsize, hshift]
    fits := by rw [hn, hsize]; exact hf.fits
    aligned := by rw [hsize]; exact hf.aligned
    granule_pos := hf.granule_pos
    next_ge := by rw [hact, hsize, hnext]
    blank_of_pending := False.elim
    count_lt := by
      rw [hn]
      have hcount : w.fs.indexSequenceCount = 1 := by rw [hfs]; rfl
      omega
    headers := by
      intro i hi _
      rw [hsize, hring, hshift, hn, IndexRing.serialAt_fresh]
      rw [hn] at hi
      rcases Nat.eq_zero_or_pos i with rfl | hpos
      · rw [Nat.zero_mul, hf.header, if_pos rfl, Option.map_some]
      · rw [if_neg (by omega), Option.map_none, Nor.read_eq_blanks, validIndexHeader_blank]
        intro a h1 h2
        have hmul := sector_mul_le (sectorSizeOf shift) hi
        have hmul' := Nat.mul_le_mul_right (sectorSizeOf shift) hpos
        have hfits := hf.fits
        have hcomm := Nat.mul_comm n (sectorSizeOf shift)
        simp only [headerSize] at h2
        exact hf.blank_after a (by rw [headerSize]; omega) (by omega) }

/-- Discovery on a fresh flash. -/
theorem Formatted.findIndexSequence (hf : Formatted v.dev n shift) (hplan : v.dev.plan = []) :
    findIndexSequence.run v = (.ok (freshSequence n shift), v) := by
  let w : World := { v with fs := mountedFs v.dev.size ⟨0, 0, false⟩ (freshSequence n shift) }
  have hr : RingFree w := Formatted.ringFree (o := ⟨0, 0, false⟩) hf rfl
  have hge := hf.sectors_ge
  have hloc : located w.fs := by
    left
    change (IndexRing.fresh n).place 0 < 1
    rw [IndexRing.place_fresh]
    exact Nat.one_pos
  have hno : noEarlierSequence w.dev.mem shift := by
    intro s _ hs _
    have hne : s ≠ shift := by
      rintro rfl
      exact absurd hs (lt_irrefl _)
    rw [probed, hr.discovered_first hne, Option.none_or, discovered]
    split
    · rfl
    · next hfits =>
      have hblank : headerAt w.dev.mem (sectorSizeOf s) = none := by
        rw [headerAt, Nor.read_eq_blanks, validIndexHeader_blank]
        intro a h1 h2
        have hS := sectorSizeOf_ge s
        have hbound := sectorSizeOf_of_probeTurn_lt shift hs
        change ¬ sectorSizeOf s + headerSize > v.dev.size at hfits
        exact hf.blank_after a (by rw [headerSize]; omega) (by omega)
      rw [hblank]
  refine hr.toRing.findIndexSequence_run hplan rfl hloc hno ?_
  have hord : (IndexRing.fresh n).Ordered := .inr (show 1 ≤ 9 by decide)
  have hfound := (IndexRing.fresh_wf hge hf.sectors_le).found_ordered hord shift
  rw [IndexRing.active_fresh hge] at hfound
  exact hfound

variable [Opts]

omit [Opts] in
theorem erased_blanks {n : Nat} (h : 4 ≤ n) : (indexRecordAt (List.replicate n blank) 0).erased = true := by
  obtain ⟨k, rfl⟩ : ∃ k, n = k + 4 := ⟨n - 4, by omega⟩
  simp only [indexRecordAt, loadLe16, byteAt, List.replicate_succ, List.getD_cons_zero,
    List.getD_cons_succ]
  decide

/-- The first record of a blank chunk ends the log. -/
theorem replayChunk_blank {active : Bool} {off nread endOff tail : Nat} (hnread : 4 ≤ nread)
    (hnext : w.fs.nextIndexOffset = off) :
    (replayChunk active off nread endOff (List.replicate nread blank) nread 0 tail).run w =
      (.ok (true, tail), w) := by
  obtain ⟨fuel, rfl⟩ : ∃ fuel, nread = fuel + 1 := ⟨nread - 1, by omega⟩
  rw [replayChunk, if_pos (by omega)]
  dsimp only
  rw [if_pos (erased_blanks hnread)]
  have hset : (Prog.when (active = true) (modifyFs fun fs => { fs with nextIndexOffset := off + 0 })
      : M Unit).run w = (.ok (), w) := by
    cases active with
    | false => rw [when_neg (by simp), run_pure]
    | true =>
      rw [when_pos rfl, run_modifyFs, Nat.add_zero, ← hnext]
  rw [bind_of_ok hset, run_pure]

/-- Replaying a blank sector finds its end. -/
theorem replaySector_blank {active : Bool} {endOff chunkSize fuel off tail : Nat}
    (hplan : w.dev.plan = []) (hchunk : 4 ≤ chunkSize) (hfuel : 0 < fuel) (hroom : off + 4 ≤ endOff)
    (hfits : endOff ≤ w.dev.size) (hnext : w.fs.nextIndexOffset = off)
    (hblank : ∀ a, off ≤ a → a < endOff → Nor.get w.dev.mem a = blank) :
    (replaySector active endOff chunkSize fuel off tail).run w = (.ok tail, w) := by
  obtain ⟨fuel, rfl⟩ : ∃ f, fuel = f + 1 := ⟨fuel - 1, by omega⟩
  rw [replaySector, if_pos hroom]
  dsimp only
  generalize hn : min (endOff - off) chunkSize - min (endOff - off) chunkSize % 4 = nread
  have hge : 4 ≤ nread ∧ off + nread ≤ endOff := by omega
  have hread := flashRead_run hplan (show off + nread ≤ w.dev.size by omega)
  rw [Nor.read_eq_blanks fun a h1 h2 => hblank a h1 (by omega)] at hread
  rw [bind_of_ok hread, bind_of_ok (replayChunk_blank hge.1 hnext)]
  rfl

/-- Replaying a log of one blank sector changes nothing. -/
theorem replayIndex_blank (hplan : w.dev.plan = []) (hcount : w.fs.indexSequenceCount = 1)
    (hactive : w.fs.oldestIndexSector = w.fs.activeIndexSector) (hscratch : 4 ≤ w.fs.scratchSize)
    (hsize : 256 ≤ w.fs.sectorSize)
    (hfits : (w.fs.activeIndexSector + 1) * w.fs.sectorSize ≤ w.dev.size)
    (hnext : w.fs.nextIndexOffset = indexSectorBegin w.fs w.fs.activeIndexSector)
    (hblank : ∀ a, indexSectorBegin w.fs w.fs.activeIndexSector ≤ a →
      a < (w.fs.activeIndexSector + 1) * w.fs.sectorSize → Nor.get w.dev.mem a = blank) :
    replayIndex.run w = (.ok (), w) := by
  have hset : (modifyFs fun fs =>
      { fs with nextIndexOffset := indexSectorBegin fs fs.activeIndexSector }).run w = (.ok (), w) := by
    rw [run_modifyFs, ← hnext]
  have hsector : ∀ active, (replaySector active ((w.fs.activeIndexSector + 1) * w.fs.sectorSize)
      w.fs.scratchSize w.fs.sectorSize (indexSectorBegin w.fs w.fs.activeIndexSector) 0).run w =
      (.ok 0, w) := by
    intro active
    refine replaySector_blank hplan hscratch (by omega) ?_ hfits hnext hblank
    rw [indexSectorBegin, headerSize, Nat.add_mul]
    omega
  have hsectors : (replaySectors 1 w.fs.activeIndexSector 0).run w = (.ok 0, w) := by
    rw [replaySectors, bind_of_ok (run_getFs w), bind_of_ok (hsector _), replaySectors, run_pure]
  rw [replayIndex, bind_of_ok hset, bind_of_ok (run_getFs w), hcount, hactive, bind_of_ok hsectors]
  rfl

/-- What the start of a mount does to a fresh flash: nothing but setting the map. -/
theorem mountReplay_formatted (hf : Formatted w.dev n shift) (hplan : w.dev.plan = [])
    (hscratch : minScratchSize ≤ o.scratchSize) :
    mountReplay.run { w with fs := mountedFs w.dev.size o (freshSequence n shift) } =
      (.ok (), { w with fs := allocMapInit (mountedFs w.dev.size o (freshSequence n shift)) }) := by
  have hge := hf.sectors_ge
  have hS := sectorSizeOf_ge shift
  have hfinish : indexFinishInterruptedCompaction.run
      { w with fs := mountedFs w.dev.size o (freshSequence n shift) } =
      (.ok (), { w with fs := mountedFs w.dev.size o (freshSequence n shift) }) := by
    rw [indexFinishInterruptedCompaction, bind_of_ok (run_getFs _)]
    exact congrArg (Prog.run · _) (if_pos (show 1 < n from hge))
  have hreplay : ∀ fs : Fs, fs.indexSequenceCount = 1 → fs.oldestIndexSector = 0 →
      fs.activeIndexSector = 0 → fs.scratchSize = o.scratchSize →
      fs.sectorSize = sectorSizeOf shift → fs.nextIndexOffset = 0 * sectorSizeOf shift + headerSize →
      replayIndex.run { w with fs := fs } = (.ok (), { w with fs := fs }) := by
    intro fs h1 h2 h3 h4 h5 h6
    rw [minScratchSize] at hscratch
    have hmul : 2 * sectorSizeOf shift ≤ n * sectorSizeOf shift := Nat.mul_le_mul_right _ hge
    have hfits := hf.fits
    have hcomm := Nat.mul_comm n (sectorSizeOf shift)
    refine replayIndex_blank (w := { w with fs := fs }) hplan h1 (h2.trans h3.symm)
      (show 4 ≤ fs.scratchSize by omega) (show 256 ≤ fs.sectorSize by omega) ?_ ?_ ?_
    · change (fs.activeIndexSector + 1) * fs.sectorSize ≤ w.dev.size
      rw [h3, h5]
      omega
    · change fs.nextIndexOffset = fs.activeIndexSector * fs.sectorSize + headerSize
      rw [h3, h5, h6]
    · intro a ha ha'
      change fs.activeIndexSector * fs.sectorSize + headerSize ≤ a at ha
      change a < (fs.activeIndexSector + 1) * fs.sectorSize at ha'
      rw [h3, h5] at ha ha'
      exact hf.blank_after a (by omega) (by omega)
  rw [mountReplay, bind_of_ok hfinish, bind_of_ok (run_modifyFs _ _)]
  dsimp only
  unfold allocMapInit
  split <;> exact hreplay _ rfl rfl rfl rfl rfl rfl

/-- `fffs_mount` of a fresh flash. -/
theorem mount_formatted (hf : Formatted w.dev n shift) (hplan : w.dev.plan = [])
    (h : (mount o).run w = (.ok (), w')) : RingFree w' := by
  rw [mount, bind_of_ok (run_get w)] at h
  split at h
  · simp at h
  · next hguard =>
    simp only [not_or, not_lt] at hguard
    have hseq := Formatted.findIndexSequence (v := { w with fs := {} }) hf hplan
    rw [unmount, bind_of_ok (run_modifyFs _ w), bind_of_ok hseq] at h
    dsimp only at h
    split at h
    · simp at h
    · have hr := Formatted.ringFree (o := o)
        (w := { w with fs := mountedFs w.dev.size o (freshSequence n shift) }) hf rfl
      have hok := mountReplay_formatted (o := o) hf hplan hguard.2.2
      have hattempt : (Prog.attempt mountReplay).run
          { w with fs := mountedFs w.dev.size o (freshSequence n shift) } =
          (.ok (.ok ()), { w with
            fs := allocMapInit (mountedFs w.dev.size o (freshSequence n shift)) }) := by
        rw [run_attempt, hok]
      rw [bind_of_ok (run_modifyFs _ _), bind_of_ok hattempt] at h
      simp only [run_pure, Prod.mk.injEq, true_and] at h
      subst h
      unfold allocMapInit
      split <;> exact { hr with }

end Mount

/-! ## Runs of the log -/

/-- A call that changes the log. -/
inductive LogOp where
  | append (slot head : Nat)
  | rotate
  | compactOldest
deriving DecidableEq, Repr

variable [Opts]

/-- The program of a call. -/
def execLogOp : LogOp → M Unit
  | .append slot head => appendIndexRecord slot head
  | .rotate => rotateIndex
  | .compactOldest => indexCompactOldest

/-- The world after a call. -/
def stepLog (w : World) (op : LogOp) : World := ((execLogOp op).run w).2

/-- The call returns `FFFS_OK`. -/
def succeeds (w : World) (op : LogOp) : Prop := ((execLogOp op).run w).1 = .ok ()

instance (w : World) (op : LogOp) : Decidable (succeeds w op) :=
  decidable_of_iff (isOk ((execLogOp op).run w).1 = true) isOk_iff

theorem stepLog_ring {op : LogOp} (hr : RingFree w) (h : succeeds w op) : RingFree (stepLog w op) := by
  have hrun : (execLogOp op).run w = (.ok (), stepLog w op) := Prod.ext h rfl
  cases op with
  | append slot head => exact appendIndexRecord_ring hr hrun
  | rotate => exact rotateIndex_ring hr hrun
  | compactOldest => exact indexCompactOldest_ring hr hrun

/-- After a format, a mount and any calls of the log that succeed, discovery returns
the running sequence exactly when the sequence is ordered, if one of the two places
it probes holds a header of the sequence and no earlier probe leads to a sequence. -/
theorem discovery_finds_running_sequence {format_ : FormatOptions} {mount_ : MountOptions}
    {w0 w1 w2 : World} {plan : List Fault} (hplan : w0.dev.plan = [])
    (hformat : (format format_).run w0 = (.ok (), w1))
    (hmount : (mount mount_).run w1 = (.ok (), w2))
    (hrun : Steps stepLog succeeds (w2.withMem w2.dev.mem plan) w)
    (hloc : located w.fs) (hno : noEarlierSequence w.dev.mem w.fs.sectorShift) :
    discovers w ↔ w.fs.ring.Ordered := by
  obtain ⟨shift, -, hf, hplan1⟩ := format_formatted hformat
  have hr2 : RingFree w2 := mount_formatted hf (hplan1 hplan) hmount
  have hr : RingFree w := hrun.invariant (fun _ _ hr h => stepLog_ring hr h) { hr2 with }
  exact hr.discovers_iff hloc hno

omit [Opts] in
instance (fs : Fs) : Decidable (located fs) := by
  unfold located; infer_instance

omit [Opts] in
instance (r : IndexRing) : Decidable r.Ordered := by
  unfold IndexRing.Ordered; infer_instance

/-- Calls on five index sectors that go around the ring. -/
def logRun : List LogOp :=
  [.append 7 9, .rotate, .append 8 10, .rotate, .compactOldest, .rotate, .rotate, .rotate,
    .append 9 11]

omit [Opts] in
theorem discovery_finds_logRun :
    let w1 := formattedChip 16 5
    let w2 := ((@mount defaultOpts smallMount).run w1).2
    let w := logRun.foldl (@stepLog defaultOpts) (w2.withMem w2.dev.mem [])
    discovers w := by
  intro w1 w2 w
  have hformat : (format { sectorSize := 256, indexSectors := 5 }).run (blankChip 16) = (.ok (), w1) :=
    run_eq_of_isOk (by decide +kernel)
  have hmount : (@mount defaultOpts smallMount).run w1 = (.ok (), w2) :=
    run_eq_of_isOk (by decide +kernel)
  have hallowed : Steps.Allowed (@stepLog defaultOpts) (@succeeds defaultOpts) logRun
      (w2.withMem w2.dev.mem []) := by
    decide +kernel
  have hloc : located w.fs := by decide +kernel
  have hno : noEarlierSequence w.dev.mem w.fs.sectorShift := by decide +kernel
  have hord : w.fs.ring.Ordered := by decide +kernel
  exact (@discovery_finds_running_sequence w defaultOpts _ smallMount (blankChip 16) w1 w2 [] rfl
    hformat hmount (Steps.ofAllowed _ _ hallowed) hloc hno).mpr hord

/-- Discovery returns something else than the running sequence. -/
def misses (w : World) : Bool :=
  match (findIndexSequence.run (w.withMem w.dev.mem [])).1 with
  | .ok seq => seq.activeSector != w.fs.activeIndexSector
  | .error _ => true

omit [Opts] in
theorem not_discovers_of_misses (h : misses w = true) : ¬ discovers w := by
  rintro ⟨seq, hseq, hactive, -⟩
  simp only [misses, hseq, hactive, bne_self_eq_false, Bool.false_eq_true] at h

omit [Opts] in
/-- Eleven rotations of eleven index sectors: ten sectors are in use, and the run
goes around the end of the ring. -/
theorem discovery_misses_running_sequence :
    ¬ ∀ (o : Opts) (format_ : FormatOptions) (mount_ : MountOptions) (w0 w1 w2 w : World),
      w0.dev.plan = [] → (format format_).run w0 = (.ok (), w1) →
      (@mount o mount_).run w1 = (.ok (), w2) →
      Steps (@stepLog o) (@succeeds o) w2 w → discovers w := by
  intro hall
  let format_ : FormatOptions := { sectorSize := 256, indexSectors := 11 }
  let w1 := ((format format_).run (blankChip 16)).2
  let w2 := ((@mount defaultOpts smallMount).run w1).2
  have hformat : (format format_).run (blankChip 16) = (.ok (), w1) := run_eq_of_isOk (by decide +kernel)
  have hmount : (@mount defaultOpts smallMount).run w1 = (.ok (), w2) :=
    run_eq_of_isOk (by decide +kernel)
  have hallowed : Steps.Allowed (@stepLog defaultOpts) (@succeeds defaultOpts)
      (List.replicate 11 .rotate) w2 := by
    decide +kernel
  have hmisses : misses ((List.replicate 11 LogOp.rotate).foldl (@stepLog defaultOpts) w2) = true := by
    decide +kernel
  exact not_discovers_of_misses hmisses
    (hall defaultOpts format_ smallMount _ w1 w2 _ rfl hformat hmount (Steps.ofAllowed _ _ hallowed))

end Fastffs
