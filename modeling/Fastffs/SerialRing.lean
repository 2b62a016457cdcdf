import Fastffs.IndexLog

/-!
# Serial numbers on a ring

The index sectors in use are a run of sectors around a ring of 2 to 15.  Their
serial numbers count up along the run modulo 16.  The scan of the headers goes
through the ring in the order of the sectors, not of the run, and keeps the
newest serial by a half-window comparison.

`scanBest_ordered` and `scanBest_unordered` say when the scan ends at the last
sector of the run: when the run does not go around the end of the ring, or when
it has at most nine sectors.  A run of ten that goes around has an oldest sector
nine serials behind the last one, which the comparison takes for a newer one.
-/

namespace Fastffs

/-! ## Places -/

/-- A run of `count` sectors around a ring of `sectors`, from `oldest` on.  The last
one has the serial `serial`. -/
structure IndexRing where
  sectors : Nat
  oldest : Nat
  count : Nat
  serial : Nat
deriving DecidableEq, Repr

namespace IndexRing

/-- The place of a sector in the run, counted from the oldest one. -/
def place (r : IndexRing) (i : Nat) : Nat :=
  if r.oldest ≤ i then i - r.oldest else i + r.sectors - r.oldest

/-- The last sector of the run. -/
def active (r : IndexRing) : Nat :=
  if r.oldest + r.count ≤ r.sectors then r.oldest + r.count - 1
  else r.oldest + r.count - 1 - r.sectors

/-- The serial of a place in the run. -/
def serialOf (r : IndexRing) (k : Nat) : Nat := (r.serial + 17 + k - r.count) % 16

/-- The serial in the header of a sector, if it is in the run. -/
def serialAt (r : IndexRing) (i : Nat) : Option Nat :=
  if r.place i < r.count then some (r.serialOf (r.place i)) else none

/-- The run with the next sector of the ring. -/
def grow (r : IndexRing) : IndexRing :=
  { r with count := r.count + 1, serial := (r.serial + 1) % 16 }

/-- The run without its oldest sector. -/
def drop (r : IndexRing) : IndexRing :=
  { r with oldest := if r.oldest + 1 = r.sectors then 0 else r.oldest + 1, count := r.count - 1 }

@[simp] theorem grow_sectors (r : IndexRing) : r.grow.sectors = r.sectors := rfl
@[simp] theorem grow_oldest (r : IndexRing) : r.grow.oldest = r.oldest := rfl
@[simp] theorem grow_count (r : IndexRing) : r.grow.count = r.count + 1 := rfl
@[simp] theorem grow_serial (r : IndexRing) : r.grow.serial = (r.serial + 1) % 16 := rfl
@[simp] theorem grow_place (r : IndexRing) (i : Nat) : r.grow.place i = r.place i := rfl

@[simp] theorem drop_sectors (r : IndexRing) : r.drop.sectors = r.sectors := rfl
@[simp] theorem drop_oldest (r : IndexRing) :
    r.drop.oldest = if r.oldest + 1 = r.sectors then 0 else r.oldest + 1 := rfl
@[simp] theorem drop_count (r : IndexRing) : r.drop.count = r.count - 1 := rfl
@[simp] theorem drop_serial (r : IndexRing) : r.drop.serial = r.serial := rfl

/-- A run on a ring of 2 to 15 sectors. -/
structure Wf (r : IndexRing) : Prop where
  sectors_ge : 2 ≤ r.sectors
  sectors_le : r.sectors ≤ 15
  oldest_lt : r.oldest < r.sectors
  count_pos : 0 < r.count
  count_le : r.count ≤ r.sectors
  serial_lt : r.serial < 16

variable {r : IndexRing} {i : Nat}

theorem active_cases (r : IndexRing) :
    r.oldest + r.count ≤ r.sectors ∧ r.active = r.oldest + r.count - 1 ∨
      r.sectors < r.oldest + r.count ∧ r.active = r.oldest + r.count - 1 - r.sectors := by
  unfold active
  split
  · next h => exact .inl ⟨h, rfl⟩
  · next h => exact .inr ⟨not_le.mp h, rfl⟩

theorem place_cases (r : IndexRing) (i : Nat) :
    r.oldest ≤ i ∧ r.place i = i - r.oldest ∨
      i < r.oldest ∧ r.place i = i + r.sectors - r.oldest := by
  unfold place
  split
  · next h => exact .inl ⟨h, rfl⟩
  · next h => exact .inr ⟨not_le.mp h, rfl⟩

theorem serialAt_of_lt (h : r.place i < r.count) : r.serialAt i = some (r.serialOf (r.place i)) :=
  if_pos h

theorem serialAt_of_ge (h : r.count ≤ r.place i) : r.serialAt i = none := if_neg (not_lt.mpr h)

theorem Wf.active_lt (h : r.Wf) : r.active < r.sectors := by
  obtain ⟨h1, h2, h3, h4, h5, h6⟩ := h
  rcases r.active_cases with h | h <;> omega

theorem Wf.place_active (h : r.Wf) : r.place r.active = r.count - 1 := by
  obtain ⟨h1, h2, h3, h4, h5, h6⟩ := h
  rcases r.active_cases with h | h <;> rcases r.place_cases r.active with h' | h' <;> omega

theorem Wf.place_inj (h : r.Wf) {j : Nat} (hi : i < r.sectors) (hj : j < r.sectors)
    (hp : r.place i = r.place j) : i = j := by
  obtain ⟨h1, h2, h3, h4, h5, h6⟩ := h
  rcases r.place_cases i with h | h <;> rcases r.place_cases j with h' | h' <;> omega

/-! ## The first run -/

/-- The run of a fresh flash: the first sector, with serial 0. -/
def fresh (n : Nat) : IndexRing := ⟨n, 0, 1, 0⟩

theorem fresh_wf {n : Nat} (h : 2 ≤ n) (h' : n ≤ 15) : (fresh n).Wf where
  sectors_ge := h
  sectors_le := h'
  oldest_lt := Nat.lt_of_lt_of_le Nat.two_pos h
  count_pos := Nat.one_pos
  count_le := Nat.le_of_lt h
  serial_lt := Nat.succ_pos 15

theorem place_fresh (n i : Nat) : (fresh n).place i = i := if_pos (Nat.zero_le i)

theorem active_fresh {n : Nat} (h : 2 ≤ n) : (fresh n).active = 0 :=
  if_pos (show 0 + 1 ≤ n by omega)

theorem serialAt_fresh (n i : Nat) : (fresh n).serialAt i = if i = 0 then some 0 else none := by
  split
  · next h =>
    subst h
    rw [serialAt_of_lt (by rw [place_fresh]; exact Nat.one_pos), place_fresh]
    simp [serialOf, fresh]
  · next h =>
    apply serialAt_of_ge
    rw [place_fresh]
    exact Nat.pos_of_ne_zero h

/-! ## Growing -/

theorem Wf.grow (h : r.Wf) (hlt : r.count < r.sectors) : r.grow.Wf where
  sectors_ge := h.sectors_ge
  sectors_le := h.sectors_le
  oldest_lt := h.oldest_lt
  count_pos := Nat.succ_pos _
  count_le := hlt
  serial_lt := Nat.mod_lt _ (by decide)

/-- The sector after the last one. -/
theorem Wf.active_grow (h : r.Wf) (hlt : r.count < r.sectors) :
    r.grow.active = if r.active + 1 ≥ r.sectors then 0 else r.active + 1 := by
  obtain ⟨h1, h2, h3, h4, h5, h6⟩ := h
  have hg := r.grow.active_cases
  rw [grow_sectors, grow_oldest, grow_count] at hg
  split <;> rcases r.active_cases with h | h <;> omega

/-- The sectors of a run keep their headers when it grows. -/
theorem Wf.serialAt_grow (h : r.Wf) (hlt : r.count < r.sectors) (hi : i < r.sectors)
    (hne : i ≠ r.grow.active) : r.grow.serialAt i = r.serialAt i := by
  have hplace : r.place i ≠ r.count := fun hp =>
    hne (h.place_inj hi (h.grow hlt).active_lt
      (hp.trans ((h.grow hlt).place_active.trans (Nat.add_sub_cancel ..)).symm))
  have hle := h.sectors_le
  by_cases hin : r.place i < r.count
  · have hin' : r.grow.place i < r.grow.count := Nat.lt_succ_of_lt hin
    rw [serialAt_of_lt hin, serialAt_of_lt hin', Option.some.injEq, serialOf, serialOf, grow_place,
      grow_count, grow_serial]
    omega
  · have hin' : r.grow.count ≤ r.grow.place i := by
      rw [grow_count, grow_place]
      omega
    rw [serialAt_of_ge hin', serialAt_of_ge (not_lt.mp hin)]

/-! ## Dropping the oldest -/

theorem Wf.drop (h : r.Wf) (hge : 2 ≤ r.count) : r.drop.Wf := by
  obtain ⟨h1, h2, h3, h4, h5, h6⟩ := h
  refine ⟨h1, h2, ?_, ?_, ?_, h6⟩
  · rw [drop_oldest, drop_sectors]
    split <;> omega
  · rw [drop_count]
    omega
  · rw [drop_count, drop_sectors]
    omega

theorem Wf.active_drop (h : r.Wf) (hge : 2 ≤ r.count) : r.drop.active = r.active := by
  obtain ⟨h1, h2, h3, h4, h5, h6⟩ := h
  have hd := r.drop.active_cases
  rw [drop_sectors, drop_oldest, drop_count] at hd
  split at hd <;> rcases r.active_cases with h | h <;> omega

theorem Wf.place_drop (h : r.Wf) (hi : i < r.sectors) :
    r.drop.place i = if i = r.oldest then r.sectors - 1 else r.place i - 1 := by
  obtain ⟨h1, h2, h3, h4, h5, h6⟩ := h
  have hd := r.drop.place_cases i
  rw [drop_sectors, drop_oldest] at hd
  split at hd <;> split <;> rcases r.place_cases i with h | h <;> omega

/-- The other sectors of a run keep their headers when it loses the oldest one. -/
theorem Wf.serialAt_drop (h : r.Wf) (hge : 2 ≤ r.count) (hi : i < r.sectors) :
    r.drop.serialAt i = if i = r.oldest then none else r.serialAt i := by
  have hplace := h.place_drop hi
  have hle := h.count_le
  have hle' := h.sectors_le
  split at hplace
  · next heq =>
    rw [if_pos heq, serialAt_of_ge]
    rw [hplace, drop_count]
    omega
  · next hne =>
    have hold := h.oldest_lt
    have hpos : 0 < r.place i := by
      rcases r.place_cases i with h' | h' <;> omega
    rw [if_neg hne]
    by_cases hin : r.place i < r.count
    · rw [serialAt_of_lt hin, serialAt_of_lt (by rw [hplace, drop_count]; omega), hplace,
        Option.some.injEq, serialOf, serialOf, drop_serial, drop_count]
      omega
    · rw [serialAt_of_ge (not_lt.mp hin), serialAt_of_ge (by rw [hplace, drop_count]; omega)]

/-! ## Finding the newest header -/

/-- The newest sector among the first `i`, as the scan of the headers keeps it. -/
def scanBest (r : IndexRing) : Nat → Option (Nat × Nat)
  | 0 => none
  | i + 1 =>
      match r.serialAt i with
      | none => r.scanBest i
      | some serial => considerIndexHeader i serial (r.scanBest i)

/-- The run does not go around the end of the ring, or it is short enough for the
half window of the serials. -/
def Ordered (r : IndexRing) : Prop := r.oldest + r.count ≤ r.sectors ∨ r.count ≤ 9

theorem Wf.serialOf_last (h : r.Wf) : r.serialOf (r.count - 1) = r.serial := by
  obtain ⟨h1, h2, h3, h4, h5, h6⟩ := h
  unfold serialOf
  omega

theorem indexSerialNewer_iff {serial best : Nat} :
    indexSerialNewer serial best = true ↔ serial ≠ best ∧ (serial + 16 - best) % 16 < 8 := by
  simp [indexSerialNewer]

/-- A serial is newer than the one before it. -/
theorem Wf.newer_succ (h : r.Wf) (k : Nat) :
    indexSerialNewer (r.serialOf (k + 1)) (r.serialOf k) = true := by
  obtain ⟨h1, h2, h3, h4, h5, h6⟩ := h
  rw [indexSerialNewer_iff]
  unfold serialOf
  omega

/-- A serial nine or more places back looks newer. -/
theorem Wf.newer_last (h : r.Wf) {k : Nat} (hk : k + 1 < r.count) :
    indexSerialNewer (r.serialOf k) r.serial = decide (k + 10 ≤ r.count) := by
  obtain ⟨h1, h2, h3, h4, h5, h6⟩ := h
  rw [Bool.eq_iff_iff, indexSerialNewer_iff, decide_eq_true_eq]
  unfold serialOf
  omega

theorem scanBest_of_ge (h : r.count ≤ r.place i) : r.scanBest (i + 1) = r.scanBest i := by
  rw [scanBest, serialAt_of_ge h]

theorem scanBest_of_lt (h : r.place i < r.count) :
    r.scanBest (i + 1) = considerIndexHeader i (r.serialOf (r.place i)) (r.scanBest i) := by
  rw [scanBest, serialAt_of_lt h]

/-- The scan along a stretch of sectors that follow each other in the run. -/
theorem Wf.scanBest_stretch (h : r.Wf) {first k0 n : Nat}
    (hplace : ∀ j < n, r.place (first + j) = k0 + j) (hcount : k0 + n ≤ r.count)
    (hfirst : 0 < n → r.scanBest (first + 1) = some (first, r.serialOf k0)) :
    0 < n → r.scanBest (first + n) = some (first + n - 1, r.serialOf (k0 + n - 1)) := by
  induction n with
  | zero => omega
  | succ n ih =>
    intro _
    rcases Nat.eq_zero_or_pos n with rfl | hn
    · exact hfirst Nat.one_pos
    · have hprev := ih (fun j hj => hplace j (by omega)) (by omega) (fun _ => hfirst (by omega)) hn
      have hp := hplace n (by omega)
      have hnew := h.newer_succ (k0 + n - 1)
      have hk : k0 + n - 1 + 1 = k0 + n := by omega
      rw [hk] at hnew
      rw [← Nat.add_assoc, scanBest_of_lt (by omega), hp, hprev, considerIndexHeader, if_pos hnew]
      simp only [Nat.add_sub_cancel, ← Nat.add_assoc]

/-- The scan along sectors outside the run. -/
theorem scanBest_gap (first : Nat) {n : Nat} (hout : ∀ j < n, r.count ≤ r.place (first + j)) :
    r.scanBest (first + n) = r.scanBest first := by
  induction n with
  | zero => rfl
  | succ n ih =>
    rw [← Nat.add_assoc, scanBest_of_ge (hout n (by omega)), ih fun j hj => hout j (by omega)]

/-- A run that does not go around the end of the ring: the scan ends at its last
sector. -/
theorem Wf.scanBest_straight (h : r.Wf) (hle : r.oldest + r.count ≤ r.sectors) :
    r.scanBest r.sectors = some (r.active, r.serial) := by
  have hpos := h.count_pos
  have hact : r.active = r.oldest + r.count - 1 := by
    rcases r.active_cases with h' | h' <;> omega
  have hbefore : r.scanBest r.oldest = none := by
    have hgap := scanBest_gap (r := r) 0 (n := r.oldest) fun j hj => by
      rcases r.place_cases (0 + j) with h' | h' <;> omega
    rwa [Nat.zero_add] at hgap
  have hplace : ∀ j < r.count, r.place (r.oldest + j) = 0 + j := fun j hj => by
    rcases r.place_cases (r.oldest + j) with h' | h' <;> omega
  have hrun := h.scanBest_stretch hplace (by omega) (fun _ => by
    have h0 := hplace 0 hpos
    rw [Nat.add_zero] at h0
    rw [scanBest_of_lt (by omega), h0, hbefore, considerIndexHeader]) hpos
  have hafter := scanBest_gap (r := r) (r.oldest + r.count)
    (n := r.sectors - (r.oldest + r.count)) fun j hj => by
      rcases r.place_cases (r.oldest + r.count + j) with h' | h' <;> omega
  rw [Nat.add_sub_cancel' hle] at hafter
  rw [hafter, hrun, hact, Nat.zero_add, h.serialOf_last]

/-- A run that goes around: the scan meets its newer part first and then compares
the older part with the last sector. -/
theorem Wf.scanBest_around (h : r.Wf) (hlt : r.sectors < r.oldest + r.count) :
    r.scanBest r.oldest = some (r.active, r.serial) := by
  obtain ⟨h1, h2, h3, h4, h5, h6⟩ := id h
  have hact : r.active = r.oldest + r.count - 1 - r.sectors := by
    rcases r.active_cases with h' | h' <;> omega
  have hplace : ∀ j < r.active + 1, r.place (0 + j) = (r.sectors - r.oldest) + j := fun j hj => by
    rcases r.place_cases (0 + j) with h' | h' <;> omega
  have hrun := h.scanBest_stretch hplace (by omega) (fun _ => by
    have h0 := hplace 0 (by omega)
    rw [Nat.add_zero] at h0
    rw [scanBest_of_lt (by omega), h0, scanBest, considerIndexHeader, Nat.add_zero]) (by omega)
  have hgap := scanBest_gap (r := r) (0 + (r.active + 1)) (n := r.oldest - (r.active + 1))
    fun j hj => by rcases r.place_cases (0 + (r.active + 1) + j) with h' | h' <;> omega
  have hlast : r.sectors - r.oldest + (r.active + 1) - 1 = r.count - 1 := by omega
  rw [show 0 + (r.active + 1) + (r.oldest - (r.active + 1)) = r.oldest by omega] at hgap
  rw [hgap, hrun, hlast, h.serialOf_last]
  simp

/-- A short run that goes around: the older part does not look newer. -/
theorem Wf.scanBest_short (h : r.Wf) (hlt : r.sectors < r.oldest + r.count) (hshort : r.count ≤ 9)
    {n : Nat} (hn : r.oldest + n ≤ r.sectors) :
    r.scanBest (r.oldest + n) = some (r.active, r.serial) := by
  induction n with
  | zero => exact h.scanBest_around hlt
  | succ n ih =>
    have hcount := h.count_le
    have hp : r.place (r.oldest + n) = n := by
      rcases r.place_cases (r.oldest + n) with h' | h' <;> omega
    have hnew := h.newer_last (k := n) (by omega)
    rw [decide_eq_false (by omega)] at hnew
    rw [← Nat.add_assoc, scanBest_of_lt (by omega), hp, ih (by omega), considerIndexHeader, hnew]
    rfl

/-- A long run that goes around: the oldest sector looks newer than the last one,
and the scan ends at the last sector of the ring. -/
theorem Wf.scanBest_long (h : r.Wf) (hlt : r.sectors < r.oldest + r.count) (hlong : 10 ≤ r.count) :
    ∃ s, r.scanBest r.sectors = some (r.sectors - 1, s) := by
  have hold := h.oldest_lt
  have hcount := h.count_le
  have hplace : ∀ j < r.sectors - r.oldest, r.place (r.oldest + j) = 0 + j := fun j hj => by
    rcases r.place_cases (r.oldest + j) with h' | h' <;> omega
  have hnew := h.newer_last (k := 0) (by omega)
  rw [decide_eq_true (by omega)] at hnew
  have hrun := h.scanBest_stretch hplace (by omega) (fun _ => by
    have h0 := hplace 0 (by omega)
    rw [Nat.add_zero] at h0
    rw [scanBest_of_lt (by omega), h0, h.scanBest_around hlt, considerIndexHeader, if_pos hnew])
    (by omega)
  rw [Nat.add_sub_cancel' hold.le] at hrun
  exact ⟨_, hrun⟩

/-- The scan finds the last sector of an ordered run. -/
theorem Wf.scanBest_ordered (h : r.Wf) (hord : r.Ordered) :
    r.scanBest r.sectors = some (r.active, r.serial) := by
  by_cases hle : r.oldest + r.count ≤ r.sectors
  · exact h.scanBest_straight hle
  · have hend := h.scanBest_short (n := r.sectors - r.oldest) (by omega) (hord.resolve_left hle)
      (by have := h.oldest_lt; omega)
    rwa [Nat.add_sub_cancel' h.oldest_lt.le] at hend

/-- The scan ends at another sector when the run is not ordered. -/
theorem Wf.scanBest_unordered (h : r.Wf) (hord : ¬ r.Ordered) :
    ∃ i s, r.scanBest r.sectors = some (i, s) ∧ i ≠ r.active := by
  simp only [Ordered, not_or, not_le] at hord
  obtain ⟨s, hs⟩ := h.scanBest_long hord.1 hord.2
  refine ⟨_, s, hs, ?_⟩
  have hold := h.oldest_lt
  have hcount := h.count_le
  rcases r.active_cases with h' | h' <;> omega

/-! ## Finding the oldest header -/

/-- Going back from a place of the run ends at the oldest sector.  A run that leaves no
sector of the ring free must not have more steps than that. -/
theorem Wf.findOldestLoop_eq (h : r.Wf) (serials : List (Option Nat))
    (hserials : ∀ j < r.sectors, serials.getD j none = r.serialAt j) (fuel : Nat) {k n : Nat}
    (hi : i < r.sectors) (hk : r.place i = k) (hlt : k < r.count) (hle : k ≤ fuel)
    (hfree : k < fuel → r.count < r.sectors) :
    findOldestLoop serials r.sectors fuel i (r.serialOf k) n = (r.oldest, n + k) := by
  have hsectors := h.sectors_le
  have hcount := h.count_le
  have hold := h.oldest_lt
  have hio : k = 0 → i = r.oldest := by
    intro h0
    rcases r.place_cases i with h' | h' <;> omega
  induction fuel generalizing i k n with
  | zero =>
    obtain rfl : k = 0 := by omega
    rw [findOldestLoop, hio rfl, Nat.add_zero]
  | succ fuel ih =>
    have hprev : prevIndexSector i r.sectors < r.sectors := by
      unfold prevIndexSector
      split <;> omega
    have hplace : r.place (prevIndexSector i r.sectors) = if k = 0 then r.sectors - 1 else k - 1 := by
      unfold prevIndexSector
      split <;> split <;> rcases r.place_cases i with h' | h' <;>
        (first
          | (rcases r.place_cases (r.sectors - 1) with h'' | h'' <;> omega)
          | (rcases r.place_cases (i - 1) with h'' | h'' <;> omega))
    unfold findOldestLoop
    dsimp only
    rw [hserials _ hprev]
    rcases Nat.eq_zero_or_pos k with rfl | hpos
    · have hspare := hfree (Nat.succ_pos fuel)
      rw [if_pos rfl] at hplace
      rw [serialAt_of_ge (by omega), if_neg (by simp), hio rfl, Nat.add_zero]
    · rw [if_neg (by omega)] at hplace
      have hser : (r.serialOf k + 15) % 16 = r.serialOf (k - 1) := by
        unfold serialOf
        omega
      have hio' : k - 1 = 0 → prevIndexSector i r.sectors = r.oldest := by
        intro h0
        rcases r.place_cases (prevIndexSector i r.sectors) with h' | h' <;> omega
      rw [serialAt_of_lt (by omega), hplace, hser, if_pos rfl,
        ih hprev hplace (by omega) (by omega) (by omega) hio', Nat.add_assoc,
        Nat.add_sub_cancel' hpos]

end IndexRing

end Fastffs
