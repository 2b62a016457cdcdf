import Fastffs.FlashSpec
import Fastffs.SerialRing

/-!
# Discovery on any flash

`fffs_find_index_sequence` on a device that never fails is a function of the bytes
of the flash (`findSequence`).  Whatever the flash holds, a sequence that it finds is
a run of sectors around the ring whose headers carry consecutive serials
(`Found`).
-/

namespace Fastffs

open Prog
open Nor (Mem Byte blank)

/-! ## As a function of the flash -/

/-- The valid index header at an offset. -/
def headerAt (m : Mem) (off : Nat) : Option IndexHeader :=
  validIndexHeader (Nor.read m off headerSize)

/-- The headers of the first sectors of a geometry.  `none` is a header of another
geometry among them. -/
def headerScan (m : Mem) (n shift : Nat) : Nat → Option HeaderScan
  | 0 => some {}
  | i + 1 =>
      match headerScan m n shift i with
      | none => none
      | some scan =>
          match headerAt m (i * sectorSizeOf shift) with
          | none => some { scan with serials := scan.serials ++ [none] }
          | some h =>
              if h.indexSectors ≠ n ∨ h.sectorShift ≠ shift then none
              else some { serials := scan.serials ++ [some h.serial]
                          best := considerIndexHeader i h.serial scan.best }

/-- The sequence of `n` index sectors of a size. -/
def sequenceAt (m : Mem) (n shift : Nat) : Option IndexSequence :=
  match headerScan m n shift n with
  | some { serials := serials, best := some (active, serial) } =>
      let (oldest, count) := findOldestIndexSector serials n active serial
      some ⟨n, shift, serial, active, oldest, count⟩
  | _ => none

/-- What discovery makes of the header at one place. -/
def discovered (m : Mem) (shift off : Nat) : Option IndexSequence :=
  if off + headerSize > m.size then none
  else
    match headerAt m off with
    | none => none
    | some locked =>
        if locked.sectorShift ≠ shift ∨ m.size / sectorSizeOf shift < locked.indexSectors then none
        else sequenceAt m locked.indexSectors shift

/-- The first sequence that the probes from `probe` on find. -/
def findSequenceFrom (m : Mem) : Nat → Nat → Option IndexSequence
  | 0, _ => none
  | fuel + 1, probe =>
      match discoveryProbeShift probe with
      | none => none
      | some shift =>
          if m.size % sectorSizeOf shift ≠ 0 then findSequenceFrom m fuel (probe + 1)
          else
            match discovered m shift 0 with
            | some seq => some seq
            | none =>
                match discovered m shift (sectorSizeOf shift) with
                | some seq => some seq
                | none => findSequenceFrom m fuel (probe + 1)

/-- The sequence of a flash. -/
def findSequence (m : Mem) : Option IndexSequence := findSequenceFrom m (maxSectorShift + 2) 0

section Run

variable {v : World}

theorem headerScan_none {m : Mem} {n shift i : Nat} (h : headerScan m n shift i = none) (k : Nat) :
    headerScan m n shift (i + k) = none := by
  induction k with
  | zero => exact h
  | succ k ih => rw [← Nat.add_assoc, headerScan, ih]

theorem headerScan_succ {m : Mem} {n shift i : Nat} {scan : HeaderScan}
    (h : headerScan m n shift i = some scan) :
    headerScan m n shift (i + 1) =
      match headerAt m (i * sectorSizeOf shift) with
      | none => some { scan with serials := scan.serials ++ [none] }
      | some h =>
          if h.indexSectors ≠ n ∨ h.sectorShift ≠ shift then none
          else some { serials := scan.serials ++ [some h.serial]
                      best := considerIndexHeader i h.serial scan.best } := by
  rw [headerScan, h]

theorem scanIndexHeaders_headerScan (hplan : v.dev.plan = []) {locked : IndexHeader} (off : Nat)
    {k i n : Nat} {scan : HeaderScan} (hn : i + k = n)
    (hfits : n * sectorSizeOf locked.sectorShift ≤ v.dev.size)
    (hscan : headerScan v.dev.mem locked.indexSectors locked.sectorShift i = some scan) :
    (scanIndexHeaders locked off (Nor.read v.dev.mem off headerSize) k i scan).run v =
      (.ok (headerScan v.dev.mem locked.indexSectors locked.sectorShift n), v) := by
  induction k generalizing i scan with
  | zero =>
    rw [Nat.add_zero] at hn
    rw [scanIndexHeaders, run_pure, ← hn, hscan]
  | succ k ih =>
    have hS : 256 ≤ sectorSizeOf locked.sectorShift :=
      Nat.le_mul_of_pos_right 256 (Nat.two_pow_pos _)
    have hin : i * sectorSizeOf locked.sectorShift + headerSize ≤ v.dev.size := by
      have hmul : (i + 1) * sectorSizeOf locked.sectorShift ≤
          n * sectorSizeOf locked.sectorShift := Nat.mul_le_mul_right _ (by omega)
      rw [Nat.add_mul, Nat.one_mul] at hmul
      rw [headerSize]
      omega
    have hhdr : (if i * sectorSizeOf locked.sectorShift = off then
        pure (Nor.read v.dev.mem off headerSize)
        else flashRead (i * sectorSizeOf locked.sectorShift) headerSize : M (List Byte)).run v =
        (.ok (Nor.read v.dev.mem (i * sectorSizeOf locked.sectorShift) headerSize), v) := by
      split
      · next heq => rw [run_pure, heq]
      · exact flashRead_run hplan hin
    have hnext := @headerScan_succ _ locked.indexSectors locked.sectorShift _ _ hscan
    rw [headerAt] at hnext
    rw [scanIndexHeaders, bind_of_ok hhdr]
    rcases hv : validIndexHeader (Nor.read v.dev.mem (i * sectorSizeOf locked.sectorShift)
      headerSize) with _ | h
    · rw [hv] at hnext
      exact ih (by omega) hnext
    · rw [hv] at hnext
      dsimp only at hnext ⊢
      split at hnext
      · next hne =>
        have hnone := headerScan_none hnext k
        rw [show i + 1 + k = n by omega] at hnone
        rw [if_pos hne, run_pure, hnone]
      · next heq =>
        rw [if_neg heq]
        exact ih (by omega) hnext

theorem discoverAt_discovered (hplan : v.dev.plan = []) (shift off : Nat) :
    (discoverAt shift off).run v = (.ok (discovered v.dev.mem shift off), v) := by
  rw [discoverAt, bind_of_ok (run_get v), discovered]
  by_cases hout : off + headerSize > v.dev.mem.size
  · rw [if_pos hout, if_pos (show off + headerSize > v.dev.size from hout), run_pure]
  · rw [if_neg hout, if_neg (show ¬ off + headerSize > v.dev.size from hout),
      bind_of_ok (flashRead_run hplan (not_lt.mp hout)), headerAt]
    rcases hlocked : validIndexHeader (Nor.read v.dev.mem off headerSize) with _ | locked
    · rfl
    · dsimp only
      by_cases hguard : locked.sectorShift ≠ shift ∨
          v.dev.mem.size / sectorSizeOf shift < locked.indexSectors
      · rw [if_pos hguard]
        exact congrArg (Prog.run · v) (if_pos hguard)
      · rw [if_neg hguard]
        refine (congrArg (Prog.run · v) (if_neg hguard)).trans ?_
        simp only [not_or, not_not, not_lt] at hguard
        obtain ⟨rfl, hle⟩ := hguard
        have hfits : locked.indexSectors * sectorSizeOf locked.sectorShift ≤ v.dev.size :=
          (Nat.le_div_iff_mul_le (Nat.mul_pos (by decide) (Nat.two_pow_pos _))).mp hle
        have hscan := scanIndexHeaders_headerScan hplan off (Nat.zero_add locked.indexSectors) hfits rfl
        rw [bind_of_ok hscan, sequenceAt]
        rcases headerScan v.dev.mem locked.indexSectors locked.sectorShift locked.indexSectors with
          _ | ⟨serials, _ | ⟨active, serial⟩⟩ <;> rfl

theorem discoverLoop_findSequenceFrom (hplan : v.dev.plan = []) (fuel probe : Nat) :
    (discoverLoop fuel probe).run v =
      (match findSequenceFrom v.dev.mem fuel probe with
        | some seq => .ok seq
        | none => .error .corrupt, v) := by
  induction fuel generalizing probe with
  | zero => rfl
  | succ fuel ih =>
    rw [discoverLoop, findSequenceFrom]
    rcases discoveryProbeShift probe with _ | shift
    · rfl
    · dsimp only
      rw [bind_of_ok (run_get v)]
      by_cases hmod : v.dev.mem.size % sectorSizeOf shift ≠ 0
      · rw [if_pos hmod]
        exact (congrArg (Prog.run · v) (if_pos hmod)).trans (ih _)
      · rw [if_neg hmod]
        refine (congrArg (Prog.run · v) (if_neg hmod)).trans ?_
        rw [bind_of_ok (discoverAt_discovered hplan shift 0)]
        rcases discovered v.dev.mem shift 0 with _ | seq
        · dsimp only
          rw [bind_of_ok (discoverAt_discovered hplan shift _)]
          rcases discovered v.dev.mem shift (sectorSizeOf shift) with _ | seq
          · exact ih _
          · rfl
        · rfl

/-- `fffs_find_index_sequence`. -/
theorem findIndexSequence_findSequence (hplan : v.dev.plan = []) :
    findIndexSequence.run v =
      (match findSequence v.dev.mem with
        | some seq => .ok seq
        | none => .error .corrupt, v) :=
  discoverLoop_findSequenceFrom hplan _ _

end Run

/-! ## What a sequence is -/

theorem validIndexHeader_some {hdr : List Byte} {h : IndexHeader} (hv : validIndexHeader hdr = some h) :
    2 ≤ h.indexSectors ∧ h.indexSectors ≤ 15 ∧ h.sectorShift ≤ maxSectorShift ∧ h.serial < 16 := by
  unfold validIndexHeader at hv
  split at hv
  · simp at hv
  · split at hv
    · simp at hv
    · dsimp only at hv
      split at hv
      · simp at hv
      · split at hv
        · simp at hv
        · next hcount hshift =>
          simp only [Option.some.injEq] at hv
          subst hv
          dsimp only
          omega

/-- The `j + 1` sectors from `o` up to `current` have consecutive serials, the last of
them `serial`. -/
structure Consecutive (serials : List (Option Nat)) (n current serial j o : Nat) : Prop where
  start_lt : o < n
  last_eq : (o + j) % n = current
  serial_eq : ∀ t ≤ j, serials.getD ((o + t) % n) none = some ((serial + 15 * (j - t)) % 16)

theorem Consecutive.single {serials : List (Option Nat)} {n current serial : Nat}
    (hcur : current < n) (hserial : serial < 16) (hat : serials.getD current none = some serial) :
    Consecutive serials n current serial 0 current where
  start_lt := hcur
  last_eq := Nat.mod_eq_of_lt hcur
  serial_eq := by
    intro t ht
    obtain rfl : t = 0 := by omega
    rw [Nat.add_zero, Nat.mod_eq_of_lt hcur, hat, Nat.sub_zero, Nat.mul_zero, Nat.add_zero,
      Nat.mod_eq_of_lt hserial]

theorem prevIndexSector_lt {n current : Nat} (hcur : current < n) : prevIndexSector current n < n := by
  unfold prevIndexSector
  split <;> omega

theorem prevIndexSector_add_one {n current : Nat} (hcur : current < n) :
    (prevIndexSector current n + 1) % n = current := by
  unfold prevIndexSector
  split
  · next h0 => rw [Nat.sub_add_cancel (by omega), Nat.mod_self, h0]
  · rw [Nat.sub_add_cancel (by omega), Nat.mod_eq_of_lt hcur]

theorem Consecutive.step {serials : List (Option Nat)} {n current serial j o : Nat} (hcur : current < n)
    (hserial : serial < 16) (hat : serials.getD current none = some serial)
    (h : Consecutive serials n (prevIndexSector current n) ((serial + 15) % 16) j o) :
    Consecutive serials n current serial (j + 1) o := by
  have hlast : (o + (j + 1)) % n = current := by
    rw [← Nat.add_assoc, ← prevIndexSector_add_one hcur, ← h.last_eq, Nat.mod_add_mod]
  refine ⟨h.start_lt, hlast, ?_⟩
  intro t ht
  rcases Nat.lt_or_ge j t with hgt | hle
  · obtain rfl : t = j + 1 := by omega
    rw [hlast, hat, Nat.sub_self, Nat.mul_zero, Nat.add_zero, Nat.mod_eq_of_lt hserial]
  · rw [h.serial_eq t hle]
    congr 1
    omega

/-- Going back from a sector passes consecutive serials. -/
theorem findOldestLoop_consecutive {serials : List (Option Nat)} {n fuel current serial k : Nat}
    (hcur : current < n) (hserial : serial < 16) (hat : serials.getD current none = some serial) :
    ∃ j ≤ fuel, ∃ o, findOldestLoop serials n fuel current serial k = (o, k + j) ∧
      Consecutive serials n current serial j o := by
  induction fuel generalizing current serial k with
  | zero => exact ⟨0, le_rfl, current, rfl, .single hcur hserial hat⟩
  | succ fuel ih =>
    rw [findOldestLoop]
    split
    · next hprev =>
      obtain ⟨j, hj, o, heq, hcons⟩ := ih (k := k + 1) (prevIndexSector_lt hcur)
        (Nat.mod_lt _ (by decide)) hprev
      refine ⟨j + 1, by omega, o, ?_, hcons.step hcur hserial hat⟩
      rw [heq]
      congr 1
      omega
    · exact ⟨0, Nat.zero_le _, current, rfl, .single hcur hserial hat⟩

/-! ## Sequences on the flash -/

/-- The ring of a sequence. -/
def IndexSequence.ring (seq : IndexSequence) : IndexRing where
  sectors := seq.indexSectors
  oldest := seq.oldestSector
  count := seq.count
  serial := seq.activeSerial

/-- The flash holds the sequence. -/
structure Found (m : Mem) (seq : IndexSequence) : Prop where
  shift_le : seq.sectorShift ≤ maxSectorShift
  fits : seq.indexSectors * sectorSizeOf seq.sectorShift ≤ m.size
  wf : seq.ring.Wf
  active_eq : seq.activeSector = seq.ring.active
  headers : ∀ i < seq.indexSectors, seq.ring.place i < seq.count →
    headerAt m (i * sectorSizeOf seq.sectorShift) =
      some ⟨seq.indexSectors, seq.sectorShift, seq.ring.serialOf (seq.ring.place i)⟩
  geometry : ∀ i < seq.indexSectors, ∀ h, headerAt m (i * sectorSizeOf seq.sectorShift) = some h →
    h.indexSectors = seq.indexSectors ∧ h.sectorShift = seq.sectorShift

/-- What the scan of the headers has seen. -/
structure Scanned (m : Mem) (n shift i : Nat) (scan : HeaderScan) : Prop where
  length : scan.serials.length = i
  serials : ∀ j < i, scan.serials.getD j none =
    (headerAt m (j * sectorSizeOf shift)).map IndexHeader.serial
  geometry : ∀ j < i, ∀ h, headerAt m (j * sectorSizeOf shift) = some h →
    h.indexSectors = n ∧ h.sectorShift = shift
  best : ∀ active serial, scan.best = some (active, serial) →
    active < i ∧ (headerAt m (active * sectorSizeOf shift)).map IndexHeader.serial = some serial

theorem headerScan_scanned {m : Mem} {n shift i : Nat} {scan : HeaderScan}
    (h : headerScan m n shift i = some scan) : Scanned m n shift i scan := by
  induction i generalizing scan with
  | zero =>
    simp only [headerScan, Option.some.injEq] at h
    subst h
    exact ⟨rfl, by omega, by omega, by simp⟩
  | succ i ih =>
    rcases hprev : headerScan m n shift i with _ | prev
    · have hnone := headerScan_none hprev 1
      rw [h] at hnone
      simp at hnone
    · have hp := ih hprev
      rw [headerScan_succ hprev] at h
      have hget : ∀ x, (prev.serials ++ [x]).length = i + 1 ∧ ∀ j < i + 1,
          (prev.serials ++ [x]).getD j none = if j = i then x else prev.serials.getD j none := by
        intro x
        refine ⟨by rw [List.length_append, hp.length, List.length_singleton], fun j hj => ?_⟩
        rw [List.getD_eq_getElem?_getD, List.getElem?_append, hp.length]
        split
        · next hlt => rw [if_neg (by omega), List.getD_eq_getElem?_getD]
        · obtain rfl : j = i := by omega
          simp
      have hlast : ∀ j < i + 1, j ≠ i → j < i := fun j hj hne => by omega
      rcases hat : headerAt m (i * sectorSizeOf shift) with _ | hdr
      · rw [hat] at h
        simp only [Option.some.injEq] at h
        subst h
        refine ⟨(hget none).1, fun j hj => ?_, fun j hj g hg => ?_, fun a s hb => ?_⟩
        · rw [(hget none).2 j hj]
          split
          · next heq => rw [heq, hat, Option.map_none]
          · next hne => exact hp.serials j (hlast j hj hne)
        · by_cases hji : j = i
          · rw [hji, hat] at hg
            simp at hg
          · exact hp.geometry j (hlast j hj hji) g hg
        · obtain ⟨h1, h2⟩ := hp.best a s hb
          exact ⟨by omega, h2⟩
      · rw [hat] at h
        dsimp only at h
        split at h
        · simp at h
        · next hgeo =>
          simp only [Option.some.injEq] at h
          subst h
          simp only [not_or, not_not] at hgeo
          refine ⟨(hget _).1, fun j hj => ?_, fun j hj g hg => ?_, fun a s hb => ?_⟩
          · rw [(hget _).2 j hj]
            split
            · next heq => rw [heq, hat, Option.map_some]
            · next hne => exact hp.serials j (hlast j hj hne)
          · by_cases hji : j = i
            · rw [hji, hat, Option.some.injEq] at hg
              exact hg ▸ hgeo
            · exact hp.geometry j (hlast j hj hji) g hg
          · have hnew : (i, hdr.serial) = (a, s) → a < i + 1 ∧
                (headerAt m (a * sectorSizeOf shift)).map IndexHeader.serial = some s := by
              rintro ⟨rfl, rfl⟩
              exact ⟨by omega, by rw [hat, Option.map_some]⟩
            have hold : prev.best = some (a, s) → a < i + 1 ∧
                (headerAt m (a * sectorSizeOf shift)).map IndexHeader.serial = some s := by
              intro hb
              obtain ⟨h1, h2⟩ := hp.best a s hb
              exact ⟨by omega, h2⟩
            rcases hpb : prev.best with _ | ⟨a', s'⟩
            · simp only [hpb, considerIndexHeader, Option.some.injEq] at hb
              exact hnew hb
            · simp only [hpb, considerIndexHeader] at hb
              split at hb
              · exact hnew (Option.some.inj hb)
              · exact hold (hpb.trans hb)

/-- The sector `t` places after `o`. -/
theorem IndexRing.place_mod {r : IndexRing} {t : Nat} (hold : r.oldest < r.sectors) (ht : t < r.sectors) :
    r.place ((r.oldest + t) % r.sectors) = t := by
  have hmod : (r.oldest + t) % r.sectors = if r.oldest + t < r.sectors then r.oldest + t
      else r.oldest + t - r.sectors := by
    split
    · next h => exact Nat.mod_eq_of_lt h
    · next h =>
      rw [Nat.mod_eq_sub_mod (by omega), Nat.mod_eq_of_lt (by omega)]
  rw [hmod]
  unfold place
  split_ifs <;> omega

/-- The headers of one geometry make a sequence. -/
theorem sequenceAt_found {m : Mem} {n shift : Nat} {seq : IndexSequence} (hn : 2 ≤ n) (hn' : n ≤ 15)
    (hshift : shift ≤ maxSectorShift) (hfits : n * sectorSizeOf shift ≤ m.size)
    (h : sequenceAt m n shift = some seq) :
    Found m seq ∧ seq.indexSectors = n ∧ seq.sectorShift = shift := by
  rw [sequenceAt] at h
  rcases hscan : headerScan m n shift n with _ | ⟨serials, _ | ⟨active, serial⟩⟩
  · simp [hscan] at h
  · simp [hscan] at h
  · have hs := headerScan_scanned hscan
    obtain ⟨hact, hser⟩ := hs.best active serial rfl
    have hserial : serial < 16 := by
      rcases hh : headerAt m (active * sectorSizeOf shift) with _ | hdr
      · simp [hh] at hser
      · rw [hh, Option.map_some, Option.some.injEq] at hser
        exact hser ▸ (validIndexHeader_some hh).2.2.2
    obtain ⟨j, hj, o, heq, hcons⟩ := @findOldestLoop_consecutive _ _ (n - 1) _ _ 1 hact hserial
      ((hs.serials active hact).trans hser)
    rw [hscan] at h
    dsimp only at h
    rw [findOldestIndexSector, heq, Option.some.injEq] at h
    subst h
    have holt := hcons.start_lt
    have hring : (IndexSequence.ring ⟨n, shift, serial, active, o, 1 + j⟩).Wf :=
      ⟨hn, hn', holt, Nat.lt_of_lt_of_le Nat.one_pos (Nat.le_add_right 1 j),
        (show 1 + j ≤ n by omega), hserial⟩
    have hsector : ∀ i < n, (IndexSequence.ring ⟨n, shift, serial, active, o, 1 + j⟩).place i < 1 + j →
        ∃ t ≤ j, (o + t) % n = i ∧
          (IndexSequence.ring ⟨n, shift, serial, active, o, 1 + j⟩).place i = t := by
      intro i hi hp
      have ht : (IndexSequence.ring ⟨n, shift, serial, active, o, 1 + j⟩).place i < n := by omega
      refine ⟨_, by omega, ?_, rfl⟩
      exact hring.place_inj (Nat.mod_lt _ (by omega)) hi (IndexRing.place_mod holt ht)
    refine ⟨?_, rfl, rfl⟩
    exact {
      shift_le := hshift
      fits := hfits
      wf := hring
      active_eq := by
        apply hring.place_inj hact hring.active_lt
        rw [hring.place_active]
        have hp := IndexRing.place_mod (r := IndexSequence.ring ⟨n, shift, serial, active, o, 1 + j⟩)
          (t := j) holt (show j < n by omega)
        change IndexRing.place _ ((o + j) % n) = j at hp
        rw [hcons.last_eq] at hp
        rw [hp]
        exact (Nat.add_sub_cancel_left 1 j).symm
      headers := by
        intro i hi hp
        obtain ⟨t, ht, hti, hpt⟩ := hsector i hi hp
        have hcs := hcons.serial_eq t ht
        rw [hti, hs.serials i hi] at hcs
        rcases hh : headerAt m (i * sectorSizeOf shift) with _ | hdr
        · simp [hh] at hcs
        · rw [hh, Option.map_some, Option.some.injEq] at hcs
          obtain ⟨hg1, hg2⟩ := hs.geometry i hi hdr hh
          obtain ⟨a, b, c⟩ := hdr
          simp only at hg1 hg2 hcs
          dsimp only
          rw [hpt, IndexRing.serialOf, hg1, hg2, hcs]
          simp only [Option.some.injEq, IndexHeader.mk.injEq, true_and]
          change _ = (serial + 17 + t - (1 + j)) % 16
          omega
      geometry := fun i hi h hh => hs.geometry i hi h hh }

theorem discovered_found {m : Mem} {shift off : Nat} {seq : IndexSequence}
    (h : discovered m shift off = some seq) : Found m seq ∧ seq.sectorShift = shift := by
  rw [discovered] at h
  split at h
  · simp at h
  · rcases hat : headerAt m off with _ | locked
    · simp [hat] at h
    · rw [hat] at h
      dsimp only at h
      split at h
      · simp at h
      · next hguard =>
        simp only [not_or, not_not, not_lt] at hguard
        obtain ⟨rfl, hle⟩ := hguard
        obtain ⟨h2, h15, hshift, -⟩ := validIndexHeader_some hat
        have hfits : locked.indexSectors * sectorSizeOf locked.sectorShift ≤ m.size :=
          (Nat.le_div_iff_mul_le (Nat.mul_pos (by decide) (Nat.two_pow_pos _))).mp hle
        obtain ⟨hfound, -, hs⟩ := sequenceAt_found h2 h15 hshift hfits h
        exact ⟨hfound, hs⟩

/-- A sequence that discovery returns is on the flash. -/
theorem findSequenceFrom_found {m : Mem} {fuel probe : Nat} {seq : IndexSequence}
    (h : findSequenceFrom m fuel probe = some seq) :
    Found m seq ∧ m.size % sectorSizeOf seq.sectorShift = 0 := by
  induction fuel generalizing probe with
  | zero => simp [findSequenceFrom] at h
  | succ fuel ih =>
    rw [findSequenceFrom] at h
    split at h
    · simp at h
    · split at h
      · exact ih h
      · next hmod =>
        rw [not_not] at hmod
        split at h
        · next hd =>
          rw [Option.some.injEq] at h
          obtain ⟨hf, rfl⟩ := discovered_found (h ▸ hd)
          exact ⟨hf, hmod⟩
        · split at h
          · next hd =>
            rw [Option.some.injEq] at h
            obtain ⟨hf, rfl⟩ := discovered_found (h ▸ hd)
            exact ⟨hf, hmod⟩
          · exact ih h

theorem findSequence_found {m : Mem} {seq : IndexSequence} (h : findSequence m = some seq) :
    Found m seq ∧ m.size % sectorSizeOf seq.sectorShift = 0 := findSequenceFrom_found h

end Fastffs
