import Fastffs.IndexCache
import Fastffs.Lib.Probe

/-!
# The map an index cache holds

A cache of the namespace index stands for a map from slots to heads, where the
head `0` says that the slot is free.  `CacheIs fs f` says that the cache of `fs`
holds the map `f`.  Lookup, insertion and removal are shown to read and update
that map, as long as the hash table has an empty bucket where one is needed.
-/

namespace Fastffs

open Prog Probe

/-! ## The hash table -/

/-- The slot and the head in a bucket. -/
def bucketAt (table : List IndexBucket) (p : Nat) : Option (Nat × Nat) :=
  let b := table.getD p {}
  if b.slot = 0 then none else some (b.slot, b.head)

/-- The hash table of `fs` holds the entries of `g`. -/
structure TableIs (fs : Fs) (g : Nat → Option Nat) : Prop where
  size_pow : fs.indexHashTableSize.isPowerOfTwo
  length : fs.buckets.length = fs.indexHashTableSize
  probing : Probing fs.indexHashTableSize (fun slot => slot % fs.indexHashTableSize)
    (bucketAt fs.buckets)
  sound : ∀ p < fs.indexHashTableSize, ∀ slot head,
    bucketAt fs.buckets p = some (slot, head) → g slot = some head
  complete : ∀ slot head, g slot = some head →
    ∃ p < fs.indexHashTableSize, bucketAt fs.buckets p = some (slot, head)

/-- The hash table has an empty bucket. -/
def hashRoom (fs : Fs) : Prop := ∃ p < fs.indexHashTableSize, bucketAt fs.buckets p = none

theorem bucketAt_eq_none {table : List IndexBucket} {p : Nat} :
    bucketAt table p = none ↔ (table.getD p {}).slot = 0 := by
  simp [bucketAt]

theorem bucketAt_eq_some {table : List IndexBucket} {p slot head : Nat} :
    bucketAt table p = some (slot, head) ↔
      slot ≠ 0 ∧ (table.getD p {}).slot = slot ∧ (table.getD p {}).head = head := by
  simp only [bucketAt]
  split
  · next h =>
    simp only [reduceCtorEq, false_iff, not_and]
    intro h1 h2
    omega
  · next h =>
    simp only [Option.some.injEq, Prod.mk.injEq]
    constructor
    · rintro ⟨rfl, rfl⟩
      exact ⟨h, rfl, rfl⟩
    · rintro ⟨-, rfl, rfl⟩
      exact ⟨rfl, rfl⟩

theorem bucketAt_set {table : List IndexBucket} {p : Nat} (hp : p < table.length)
    (b : IndexBucket) :
    bucketAt (table.set p b) =
      Function.update (bucketAt table) p (if b.slot = 0 then none else some (b.slot, b.head)) := by
  funext q
  rw [Function.update_apply, bucketAt, bucketAt, List.getD_eq_getElem?_getD, List.getElem?_set]
  by_cases hqp : q = p
  · rw [if_pos hqp, if_pos hqp.symm, if_pos hp, Option.getD_some]
  · rw [if_neg hqp, if_neg (Ne.symm hqp), List.getD_eq_getElem?_getD]

namespace TableIs

variable {fs : Fs} {g : Nat → Option Nat} {slot head : Nat}

theorem size_pos (h : TableIs fs g) : 0 < fs.indexHashTableSize :=
  Nat.pos_of_isPowerOfTwo h.size_pow

theorem and_mask (h : TableIs fs g) (x : Nat) :
    x &&& (fs.indexHashTableSize - 1) = x % fs.indexHashTableSize := by
  obtain ⟨k, hk⟩ := h.size_pow
  rw [hk, Nat.and_two_pow_sub_one_eq_mod]

theorem bucketFor_eq (h : TableIs fs g) (x : Nat) :
    bucketFor fs.indexHashTableSize x = x % fs.indexHashTableSize := h.and_mask x

theorem next_eq (h : TableIs fs g) {p : Nat} (hp : p < fs.indexHashTableSize) :
    (p + 1) &&& (fs.indexHashTableSize - 1) = next fs.indexHashTableSize p := by
  rw [h.and_mask]
  unfold next
  split
  · next hlt => exact Nat.mod_eq_of_lt hlt
  · next hge =>
    have heq : p + 1 = fs.indexHashTableSize := by omega
    rw [heq, Nat.mod_self]

theorem probeDistance_eq (h : TableIs fs g) {a b : Nat} (ha : a < fs.indexHashTableSize)
    (hb : b < fs.indexHashTableSize) :
    probeDistance fs.indexHashTableSize a b = steps fs.indexHashTableSize a b := by
  rw [probeDistance, h.and_mask]
  unfold steps
  split
  · next hle =>
    rw [show b + fs.indexHashTableSize - a = (b - a) + fs.indexHashTableSize by omega,
      Nat.add_mod_right, Nat.mod_eq_of_lt (by omega)]
  · exact Nat.mod_eq_of_lt (by omega)

/-- The probe loop of `find_slot_bucket`: it stops at the slot or at the first
empty bucket, or it has seen every bucket. -/
theorem findLoop (h : TableIs fs g) (hslot : slot ≠ 0) {n pos : Nat}
    (hpos : pos < fs.indexHashTableSize) (hn : n ≤ fs.indexHashTableSize)
    (hdist : n = 0 ∨
      steps fs.indexHashTableSize (slot % fs.indexHashTableSize) pos + n = fs.indexHashTableSize)
    (hseen : ∀ p < fs.indexHashTableSize,
      n = 0 ∨ steps fs.indexHashTableSize (slot % fs.indexHashTableSize) p <
        steps fs.indexHashTableSize (slot % fs.indexHashTableSize) pos →
      bucketAt fs.buckets p ≠ none ∧ ∀ v, bucketAt fs.buckets p ≠ some (slot, v)) :
    (∃ p < fs.indexHashTableSize, findSlotBucketLoop fs.buckets fs.indexHashTableSize slot n pos =
        some (p, true) ∧ ∃ v, bucketAt fs.buckets p = some (slot, v) ∧ g slot = some v) ∨
    (∃ p < fs.indexHashTableSize, findSlotBucketLoop fs.buckets fs.indexHashTableSize slot n pos =
        some (p, false) ∧ bucketAt fs.buckets p = none ∧ g slot = none ∧
        ∀ q < fs.indexHashTableSize, steps fs.indexHashTableSize (slot % fs.indexHashTableSize) q <
          steps fs.indexHashTableSize (slot % fs.indexHashTableSize) p →
          bucketAt fs.buckets q ≠ none) ∨
    (findSlotBucketLoop fs.buckets fs.indexHashTableSize slot n pos = none ∧ g slot = none ∧
      ¬ hashRoom fs) := by
  have hhome := h.probing.home_lt slot
  induction n generalizing pos with
  | zero =>
    right; right
    refine ⟨rfl, ?_, ?_⟩
    · refine Option.eq_none_iff_forall_ne_some.mpr fun v hv => ?_
      obtain ⟨p, hp, hb⟩ := h.complete slot v hv
      exact (hseen p hp (.inl rfl)).2 _ hb
    · rintro ⟨p, hp, hb⟩
      exact (hseen p hp (.inl rfl)).1 hb
  | succ n ih =>
    have hd := hdist.resolve_left (by omega)
    rw [findSlotBucketLoop]
    by_cases hempty : (fs.buckets.getD pos {}).slot = 0
    · have hb : bucketAt fs.buckets pos = none := bucketAt_eq_none.mpr hempty
      right; left
      refine ⟨pos, hpos, if_pos hempty, hb, ?_, fun q hq hlt => (hseen q hq (.inr hlt)).1⟩
      refine Option.eq_none_iff_forall_ne_some.mpr fun v hv => ?_
      obtain ⟨p, hp, hbp⟩ := h.complete slot v hv
      exact h.probing.absent hpos hb (fun q hq hlt => (hseen q hq (.inr hlt)).2) p hp _ hbp
    · rw [if_neg hempty]
      by_cases heq : (fs.buckets.getD pos {}).slot = slot
      · left
        have hb : bucketAt fs.buckets pos = some (slot, (fs.buckets.getD pos {}).head) :=
          bucketAt_eq_some.mpr ⟨hslot, heq, rfl⟩
        exact ⟨pos, hpos, if_pos heq, _, hb, h.sound pos hpos _ _ hb⟩
      · rw [if_neg heq, h.next_eq hpos]
        have hnone : bucketAt fs.buckets pos ≠ none := fun hb => hempty (bucketAt_eq_none.mp hb)
        have hother : ∀ v, bucketAt fs.buckets pos ≠ some (slot, v) := fun v hb =>
          heq (bucketAt_eq_some.mp hb).2.1
        have hnl := next_lt (i := pos) h.size_pos
        refine ih hnl (by omega) ?_ ?_
        · unfold steps next at *
          split_ifs at * <;> omega
        · intro p hp hcase
          by_cases hpp : p = pos
          · exact hpp ▸ ⟨hnone, hother⟩
          · apply hseen p hp
            right
            unfold steps next at *
            split_ifs at * <;> omega

/-- `find_slot_bucket`. -/
theorem find (h : TableIs fs g) (hslot : slot ≠ 0) :
    (∃ p < fs.indexHashTableSize, findSlotBucket fs slot = some (p, true) ∧
        ∃ v, bucketAt fs.buckets p = some (slot, v) ∧ g slot = some v) ∨
    (∃ p < fs.indexHashTableSize, findSlotBucket fs slot = some (p, false) ∧
        bucketAt fs.buckets p = none ∧ g slot = none ∧
        ∀ q < fs.indexHashTableSize, steps fs.indexHashTableSize (slot % fs.indexHashTableSize) q <
          steps fs.indexHashTableSize (slot % fs.indexHashTableSize) p →
          bucketAt fs.buckets q ≠ none) ∨
    (findSlotBucket fs slot = none ∧ g slot = none ∧ ¬ hashRoom fs) := by
  have hpos := h.size_pos
  have hhome := Nat.mod_lt slot hpos
  rw [findSlotBucket, h.bucketFor_eq]
  refine h.findLoop hslot hhome le_rfl (.inr ?_) ?_
  · simp [steps]
  · intro p _ hcase
    simp only [steps, le_refl, if_true, Nat.sub_self] at hcase
    omega

/-- The loop of `remove_bucket_at` ends if some other bucket is empty, and the
entry of the hole is gone. -/
theorem removeLoop (h : TableIs fs g) {table : List IndexBucket} {hole idx e n : Nat}
    (hlen : table.length = fs.indexHashTableSize)
    (hgap : Gap fs.indexHashTableSize (fun slot => slot % fs.indexHashTableSize) (bucketAt table)
      hole idx)
    (he : e < fs.indexHashTableSize) (hempty : bucketAt table e = none) (hne : e ≠ hole)
    (hfuel : steps fs.indexHashTableSize idx e < n) :
    ∃ table', removeBucketLoop fs.indexHashTableSize n table hole idx = some table' ∧
      table'.length = fs.indexHashTableSize ∧
      Probing fs.indexHashTableSize (fun slot => slot % fs.indexHashTableSize) (bucketAt table') ∧
      ∀ b, (∃ p < fs.indexHashTableSize, bucketAt table' p = some b) ↔
        ∃ p < fs.indexHashTableSize, p ≠ hole ∧ bucketAt table p = some b := by
  have hpos := h.size_pos
  have hclear : ∀ table : List IndexBucket, ∀ hole,
      hole < table.length → bucketAt (table.set hole {}) = Function.update (bucketAt table) hole none :=
    fun table hole hh => bucketAt_set hh {}
  induction n generalizing table hole idx with
  | zero => omega
  | succ n ih =>
    have hhole := hgap.hole_lt
    have hidx := hgap.idx_lt
    rw [removeBucketLoop]
    by_cases hb : (table.getD idx {}).slot = 0
    · rw [if_pos hb]
      refine ⟨_, rfl, by rw [List.length_set, hlen], ?_, ?_⟩
      · rw [hclear table hole (by omega)]
        exact hgap.close (bucketAt_eq_none.mpr hb)
      · intro b
        rw [hclear table hole (by omega)]
        simp only [Function.update_apply]
        constructor
        · rintro ⟨p, hp, hk⟩
          split_ifs at hk with hph
          exact ⟨p, hp, hph, hk⟩
        · rintro ⟨p, hp, hph, hk⟩
          exact ⟨p, hp, by rw [if_neg hph]; exact hk⟩
    · rw [if_neg hb]
      have hk : bucketAt table idx =
          some ((table.getD idx {}).slot, (table.getD idx {}).head) :=
        bucketAt_eq_some.mpr ⟨hb, rfl, rfl⟩
      have hei : e ≠ idx := by
        rintro rfl
        rw [hempty] at hk
        simp at hk
      have hfuel' : steps fs.indexHashTableSize (next fs.indexHashTableSize idx) e < n := by
        unfold steps next at *
        split_ifs at * <;> omega
      have hhome := hgap.home_lt (table.getD idx {}).slot
      rw [h.next_eq hidx, h.bucketFor_eq]
      dsimp only
      rw [h.probeDistance_eq hhome hhole, h.probeDistance_eq hhome hidx]
      by_cases hcross : steps fs.indexHashTableSize
          ((table.getD idx {}).slot % fs.indexHashTableSize) hole <
        steps fs.indexHashTableSize ((table.getD idx {}).slot % fs.indexHashTableSize) idx
      · rw [if_pos hcross]
        have hset : bucketAt (table.set hole (table.getD idx {})) =
            Function.update (bucketAt table) hole
              (some ((table.getD idx {}).slot, (table.getD idx {}).head)) := by
          rw [bucketAt_set (by omega), if_neg hb]
        have hnext : next fs.indexHashTableSize idx ≠ idx := by
          unfold next
          split_ifs <;> omega
        obtain ⟨table', hrun, hlen', hprob, hcontent⟩ := @ih (table.set hole (table.getD idx {})) _ _
          (by rw [List.length_set, hlen]) (hset ▸ hgap.move hk hcross hnext)
          (by rw [hset, Function.update_of_ne hne]; exact hempty) hei hfuel'
        refine ⟨table', hrun, hlen', hprob, fun b => (hcontent b).trans ?_⟩
        rw [hset]
        simp only [Function.update_apply]
        constructor
        · rintro ⟨p, hp, hpi, hkp⟩
          split_ifs at hkp with hph
          · exact ⟨idx, hidx, hgap.idx_ne, hk.trans hkp⟩
          · exact ⟨p, hp, hph, hkp⟩
        · rintro ⟨p, hp, hph, hkp⟩
          by_cases hpi : p = idx
          · exact ⟨hole, hhole, hgap.idx_ne.symm, by rw [if_pos rfl, ← hkp, hpi, hk]⟩
          · exact ⟨p, hp, hpi, by rw [if_neg hph]; exact hkp⟩
      · rw [if_neg hcross]
        have hnext : next fs.indexHashTableSize idx ≠ hole := by
          intro heq
          have hpass := hgap.passed e he hne
          have hlt : steps fs.indexHashTableSize hole e < steps fs.indexHashTableSize hole idx := by
            have hidxne := hgap.idx_ne
            unfold steps next at *
            split_ifs at * <;> omega
          obtain ⟨k, v, hkv, -⟩ := hpass hlt
          rw [hempty] at hkv
          simp at hkv
        exact ih hlen (hgap.skip hk hcross hnext) hempty hne hfuel'

/-- `fffs_index_insert` of a slot that is in the table or finds an empty bucket. -/
theorem insert (h : TableIs fs g) (hslot : slot ≠ 0) {p : Nat} {found : Bool}
    (hfind : findSlotBucket fs slot = some (p, found)) :
    TableIs { fs with buckets := fs.buckets.set p ⟨slot, head⟩ } (Function.update g slot (some head)) := by
  have hset : ∀ q, q < fs.indexHashTableSize → bucketAt (fs.buckets.set q ⟨slot, head⟩) =
      Function.update (bucketAt fs.buckets) q (some (slot, head)) := by
    intro q hq
    rw [bucketAt_set (by rw [h.length]; exact hq), if_neg hslot]
  have hcase : p < fs.indexHashTableSize ∧
      Probing fs.indexHashTableSize (fun s => s % fs.indexHashTableSize)
        (Function.update (bucketAt fs.buckets) p (some (slot, head))) ∧
      ∀ q < fs.indexHashTableSize, q ≠ p → ∀ v, bucketAt fs.buckets q ≠ some (slot, v) := by
    rcases h.find hslot with ⟨q, hq, hfq, v', hb, -⟩ | ⟨q, hq, hfq, hb, h0, hclose⟩ | ⟨hfq, -⟩
    · rw [hfind, Option.some.injEq, Prod.mk.injEq] at hfq
      obtain ⟨rfl, -⟩ := hfq
      exact ⟨hq, h.probing.update hb head, fun r hr hrp v hbr =>
        hrp (h.probing.unique r p slot v v' hr hq hbr hb)⟩
    · rw [hfind, Option.some.injEq, Prod.mk.injEq] at hfq
      obtain ⟨rfl, -⟩ := hfq
      have habsent : ∀ r < fs.indexHashTableSize, ∀ v, bucketAt fs.buckets r ≠ some (slot, v) := by
        intro r hr v hbr
        rw [h.sound r hr slot v hbr] at h0
        cases h0
      exact ⟨hq, h.probing.insert hclose habsent head, fun r hr _ v => habsent r hr v⟩
    · rw [hfind] at hfq
      simp at hfq
  obtain ⟨hp, hprob, hother⟩ := hcase
  exact {
    size_pow := h.size_pow
    length := by rw [List.length_set]; exact h.length
    probing := by rw [hset p hp]; exact hprob
    sound := by
      intro q hq s v hb
      simp only [hset p hp, Function.update_apply] at hb
      rw [Function.update_apply]
      split_ifs at hb with hqp
      · simp only [Option.some.injEq, Prod.mk.injEq] at hb
        rw [if_pos hb.1.symm, ← hb.2]
      · have hs : s ≠ slot := by
          rintro rfl
          exact hother q hq hqp v hb
        rw [if_neg hs]
        exact h.sound q hq s v hb
    complete := by
      intro s v hs
      simp only [hset p hp, Function.update_apply] at hs ⊢
      split_ifs at hs with hss
      · exact ⟨p, hp, by rw [if_pos rfl, ← Option.some.inj hs, hss]⟩
      · obtain ⟨q, hq, hb⟩ := h.complete s v hs
        refine ⟨q, hq, ?_⟩
        have hqp : q ≠ p := by
          rintro rfl
          rcases h.find hslot with ⟨r, hr, hfr, v', hbr, -⟩ | ⟨r, hr, hfr, hbr, -⟩ | ⟨hfr, -⟩
          · rw [hfind, Option.some.injEq, Prod.mk.injEq] at hfr
            obtain ⟨rfl, -⟩ := hfr
            rw [hb, Option.some.injEq, Prod.mk.injEq] at hbr
            exact hss hbr.1
          · rw [hfind, Option.some.injEq, Prod.mk.injEq] at hfr
            obtain ⟨rfl, -⟩ := hfr
            rw [hb] at hbr
            simp at hbr
          · rw [hfind] at hfr
            simp at hfr
        rw [if_neg hqp]
        exact hb }

/-- `fffs_index_remove` of a slot in a table with an empty bucket. -/
theorem remove (h : TableIs fs g) (hslot : slot ≠ 0) (hroom : hashRoom fs) {p : Nat}
    (hfind : findSlotBucket fs slot = some (p, true)) :
    ∃ table, removeBucketAt fs.indexHashTableSize fs.buckets p = some table ∧
      TableIs { fs with buckets := table } (Function.update g slot none) := by
  have hb : p < fs.indexHashTableSize ∧ ∃ v, bucketAt fs.buckets p = some (slot, v) := by
    rcases h.find hslot with ⟨q, hq, hfq, v, hb, -⟩ | ⟨q, hq, hfq, -⟩ | ⟨hfq, -⟩ <;>
      rw [hfind] at hfq <;> simp at hfq
    subst hfq
    exact ⟨hq, v, hb⟩
  obtain ⟨hp, v', hb⟩ := hb
  obtain ⟨e, he, hempty⟩ := hroom
  have hep : e ≠ p := by
    rintro rfl
    rw [hempty] at hb
    simp at hb
  have hnext : next fs.indexHashTableSize p ≠ p := by
    unfold next
    split_ifs <;> omega
  obtain ⟨table, hrun, hlen, hprob, hcontent⟩ := h.removeLoop (n := fs.indexHashTableSize + 1) h.length
    (Gap.start h.probing hp hnext) he hempty hep
    ((steps_lt (next_lt h.size_pos) he).trans (Nat.lt_succ_self _))
  refine ⟨table, ?_, ?_⟩
  · rw [removeBucketAt, h.next_eq hp]
    exact hrun
  · exact {
      size_pow := h.size_pow
      length := hlen
      probing := hprob
      sound := by
        intro q hq s v hbq
        obtain ⟨r, hr, hrp, hbr⟩ := (hcontent (s, v)).mp ⟨q, hq, hbq⟩
        have hs : s ≠ slot := by
          rintro rfl
          exact hrp (h.probing.unique r p s v v' hr hp hbr hb)
        rw [Function.update_of_ne hs]
        exact h.sound r hr s v hbr
      complete := by
        intro s v hs
        rw [Function.update_apply] at hs
        split_ifs at hs with hss
        · obtain ⟨q, hq, hbq⟩ := h.complete s v hs
          refine (hcontent _).mpr ⟨q, hq, ?_, hbq⟩
          rintro rfl
          rw [hb, Option.some.injEq, Prod.mk.injEq] at hbq
          exact hss hbq.1.symm }

/-- The loop of `remove_bucket_at` does not end in a full table. -/
theorem removeLoop_full {size n hole idx : Nat} {table : List IndexBucket} (hpos : 0 < size)
    (hpow : size.isPowerOfTwo) (hidx : idx < size)
    (hfull : ∀ p < size, (table.getD p {}).slot ≠ 0) :
    removeBucketLoop size n table hole idx = none := by
  have hmask : ∀ x, x &&& (size - 1) < size := by
    intro x
    obtain ⟨k, hk⟩ := hpow
    rw [hk, Nat.and_two_pow_sub_one_eq_mod]
    exact Nat.mod_lt _ (hk ▸ hpos)
  induction n generalizing table hole idx with
  | zero => rfl
  | succ n ih =>
    rw [removeBucketLoop, if_neg (hfull idx hidx)]
    dsimp only
    split
    · apply ih (hmask _)
      intro p hp
      rw [List.getD_eq_getElem?_getD, List.getElem?_set]
      split
      · split
        · exact hfull idx hidx
        · next hout =>
          have hp' := hfull p hp
          rw [List.getD_eq_getElem?_getD, List.getElem?_eq_none (by omega)] at hp'
          exact absurd rfl hp'
      · rw [← List.getD_eq_getElem?_getD]
        exact hfull p hp
    · exact ih (hmask _) hfull

/-- A removal that ends has found an empty bucket. -/
theorem room_of_remove (h : TableIs fs g) {p n : Nat} {table : List IndexBucket}
    (hrun : removeBucketLoop fs.indexHashTableSize n fs.buckets p
      ((p + 1) &&& (fs.indexHashTableSize - 1)) = some table) : hashRoom fs := by
  by_contra hroom
  have hmask : (p + 1) &&& (fs.indexHashTableSize - 1) < fs.indexHashTableSize := by
    rw [h.and_mask]
    exact Nat.mod_lt _ h.size_pos
  rw [removeLoop_full h.size_pos h.size_pow hmask] at hrun
  · simp at hrun
  · intro q hq h0
    exact hroom ⟨q, hq, bucketAt_eq_none.mpr h0⟩

end TableIs

/-- A head as `fffs_index_head_for_slot` returns it. -/
def headOf (head : Nat) : Option Nat := if head = 0 then none else some head

theorem headOf_eq_some {head v : Nat} : headOf head = some v ↔ v ≠ 0 ∧ head = v := by
  rw [headOf]
  split_ifs with h0
  · exact ⟨fun h => (nomatch h), fun h => absurd (h.2 ▸ h0) h.1⟩
  · rw [Option.some.injEq]
    exact ⟨fun h => ⟨h ▸ h0, h⟩, fun h => h.2⟩

theorem headOf_eq_none {head : Nat} : headOf head = none ↔ head = 0 := by
  rw [headOf]
  split_ifs with h0
  · exact iff_of_true rfl h0
  · exact iff_of_false (fun h => nomatch h) h0

/-- The hash table of `fs` holds the map `f`. -/
structure HashIs (fs : Fs) (f : Nat → Nat) : Prop where
  size_pow : fs.indexHashTableSize.isPowerOfTwo
  length : fs.buckets.length = fs.indexHashTableSize
  probing : Probing fs.indexHashTableSize (fun slot => slot % fs.indexHashTableSize)
    (bucketAt fs.buckets)
  sound : ∀ p < fs.indexHashTableSize, ∀ slot head,
    bucketAt fs.buckets p = some (slot, head) → head ≠ 0 ∧ f slot = head
  complete : ∀ slot, f slot ≠ 0 →
    ∃ p < fs.indexHashTableSize, bucketAt fs.buckets p = some (slot, f slot)

namespace HashIs

variable {fs : Fs} {f : Nat → Nat} {slot head : Nat}

theorem table (h : HashIs fs f) : TableIs fs fun s => headOf (f s) where
  size_pow := h.size_pow
  length := h.length
  probing := h.probing
  sound p hp slot head hb := headOf_eq_some.mpr (h.sound p hp slot head hb)
  complete slot head hg := by
    obtain ⟨h0, rfl⟩ := headOf_eq_some.mp hg
    exact h.complete slot h0

theorem ofTable {g : Nat → Option Nat} (h : TableIs fs g) (hg : ∀ s, g s = headOf (f s)) : HashIs fs f where
  size_pow := h.size_pow
  length := h.length
  probing := h.probing
  sound p hp slot head hb := headOf_eq_some.mp ((hg slot).symm.trans (h.sound p hp slot head hb))
  complete slot h0 := h.complete slot (f slot) ((hg slot).trans (headOf_eq_some.mpr ⟨h0, rfl⟩))

/-- `find_slot_bucket`. -/
theorem find (h : HashIs fs f) (hslot : slot ≠ 0) :
    (∃ p < fs.indexHashTableSize, findSlotBucket fs slot = some (p, true) ∧
        bucketAt fs.buckets p = some (slot, f slot) ∧ f slot ≠ 0) ∨
    (∃ p < fs.indexHashTableSize, findSlotBucket fs slot = some (p, false) ∧
        bucketAt fs.buckets p = none ∧ f slot = 0) ∨
    (findSlotBucket fs slot = none ∧ f slot = 0 ∧ ¬ hashRoom fs) := by
  rcases h.table.find hslot with ⟨p, hp, hfind, v, hb, hg⟩ | ⟨p, hp, hfind, hb, hg, -⟩ | ⟨hfind, hg, hroom⟩
  · obtain ⟨h0, rfl⟩ := headOf_eq_some.mp hg
    exact .inl ⟨p, hp, hfind, hb, h0⟩
  · exact .inr (.inl ⟨p, hp, hfind, hb, headOf_eq_none.mp hg⟩)
  · exact .inr (.inr ⟨hfind, headOf_eq_none.mp hg, hroom⟩)

/-- `fffs_index_insert` of a slot that is in the table or finds an empty bucket. -/
theorem insert (h : HashIs fs f) (hslot : slot ≠ 0) (hhead : head ≠ 0) {p : Nat} {found : Bool}
    (hfind : findSlotBucket fs slot = some (p, found)) :
    HashIs { fs with buckets := fs.buckets.set p ⟨slot, head⟩ } (Function.update f slot head) := by
  refine ofTable (h.table.insert hslot hfind) fun s => ?_
  rw [Function.update_apply, Function.update_apply]
  split_ifs
  · exact (headOf_eq_some.mpr ⟨hhead, rfl⟩).symm
  · rfl

/-- `fffs_index_remove` of a slot in a table with an empty bucket. -/
theorem remove (h : HashIs fs f) (hslot : slot ≠ 0) (hroom : hashRoom fs) {p : Nat}
    (hfind : findSlotBucket fs slot = some (p, true)) :
    ∃ table, removeBucketAt fs.indexHashTableSize fs.buckets p = some table ∧
      HashIs { fs with buckets := table } (Function.update f slot 0) := by
  obtain ⟨table, hrun, ht⟩ := h.table.remove hslot hroom hfind
  refine ⟨table, hrun, ofTable ht fun s => ?_⟩
  rw [Function.update_apply, Function.update_apply]
  split_ifs <;> rfl

/-- A table does not depend on the other fields. -/
theorem congr {fs' : Fs} (h : HashIs fs f) (hsize : fs'.indexHashTableSize = fs.indexHashTableSize)
    (hbuckets : fs'.buckets = fs.buckets) : HashIs fs' f := by
  constructor
  · rw [hsize]
    exact h.size_pow
  · rw [hbuckets, hsize]
    exact h.length
  · rw [hbuckets, hsize]
    exact h.probing
  · rw [hbuckets, hsize]
    exact h.sound
  · rw [hbuckets, hsize]
    exact h.complete

end HashIs

/-! ## The three caches -/

variable [Opts]

/-- The cache holds the map `f`.  A build without a cache holds every map. -/
def CacheIs (fs : Fs) (f : Nat → Nat) : Prop :=
  match Opts.indexCacheMode with
  | .none => True
  | .hashHeads => HashIs fs f
  | .fullSlotHeads => fs.indexHeads = f

/-- The map of a cache does not depend on the other fields. -/
theorem CacheIs.congr {fs fs' : Fs} {f : Nat → Nat} (h : CacheIs fs f)
    (hsize : fs'.indexHashTableSize = fs.indexHashTableSize) (hbuckets : fs'.buckets = fs.buckets)
    (hheads : fs'.indexHeads = fs.indexHeads) : CacheIs fs' f := by
  unfold CacheIs at h ⊢
  cases hmode : Opts.indexCacheMode with
  | none => trivial
  | fullSlotHeads =>
    rw [hmode] at h
    exact hheads.trans h
  | hashHeads =>
    rw [hmode] at h
    exact HashIs.congr h hsize hbuckets

/-- A change of the map fits the cache: a hash table needs an empty bucket to take a
new slot, and to give one up. -/
def cacheRoom (fs : Fs) (f : Nat → Nat) (slot head : Nat) : Prop :=
  Opts.indexCacheMode = .hashHeads → (f slot = 0 ↔ head = 0) ∨ hashRoom fs

/-- The world with another cache. -/
def World.withCache (w : World) (buckets : List IndexBucket) (heads : Nat → Nat) : World :=
  { w with fs := { w.fs with buckets := buckets, indexHeads := heads } }

variable {w w' : World} {f : Nat → Nat} {slot head : Nat}

/-- `fffs_index_insert`. -/
theorem indexInsert_run (hc : CacheIs w.fs f) (hslot : slot ≠ 0) (hhead : head ≠ 0)
    (hroom : cacheRoom w.fs f slot head) :
    ∃ b heads, (indexInsert slot head).run w = (.ok (), w.withCache b heads) ∧
      CacheIs (w.withCache b heads).fs (Function.update f slot head) := by
  unfold CacheIs at hc ⊢
  unfold cacheRoom at hroom
  rw [indexInsert, bind_of_ok (run_getFs w)]
  cases hm : Opts.indexCacheMode with
  | none => exact ⟨w.fs.buckets, w.fs.indexHeads, rfl, trivial⟩
  | fullSlotHeads =>
    rw [hm] at hc
    refine ⟨w.fs.buckets, _, rfl, ?_⟩
    funext s
    change (if s = slot then head else w.fs.indexHeads s) = _
    rw [Function.update_apply, hc]
  | hashHeads =>
    rw [hm] at hc
    dsimp only at hc ⊢
    rw [if_neg hslot]
    rcases hc.find hslot with ⟨p, -, hfind, -⟩ | ⟨p, -, hfind, -⟩ | ⟨-, h0, hfull⟩
    · rw [hfind]
      exact ⟨_, w.fs.indexHeads, rfl, hc.insert hslot hhead hfind⟩
    · rw [hfind]
      exact ⟨_, w.fs.indexHeads, rfl, hc.insert hslot hhead hfind⟩
    · exact absurd ((hroom hm).resolve_left (fun h => hhead (h.mp h0))) hfull

/-- `fffs_index_remove`. -/
theorem indexRemove_run (hc : CacheIs w.fs f) (hslot : slot ≠ 0) (hroom : cacheRoom w.fs f slot 0) :
    ∃ b heads, (indexRemove slot).run w = (.ok (), w.withCache b heads) ∧
      CacheIs (w.withCache b heads).fs (Function.update f slot 0) := by
  unfold CacheIs at hc ⊢
  unfold cacheRoom at hroom
  rw [indexRemove, bind_of_ok (run_getFs w)]
  cases hm : Opts.indexCacheMode with
  | none => exact ⟨w.fs.buckets, w.fs.indexHeads, rfl, trivial⟩
  | fullSlotHeads =>
    rw [hm] at hc
    refine ⟨w.fs.buckets, _, rfl, ?_⟩
    funext s
    change (if s = slot then 0 else w.fs.indexHeads s) = _
    rw [Function.update_apply, hc]
  | hashHeads =>
    rw [hm] at hc
    dsimp only at hc ⊢
    rw [if_neg hslot]
    have hsame : f slot = 0 → Function.update f slot 0 = f := fun h0 => by
      rw [← h0, Function.update_eq_self]
    rcases hc.find hslot with ⟨p, -, hfind, -, h0⟩ | ⟨p, -, hfind, -, h0⟩ | ⟨hfind, h0, -⟩
    · obtain ⟨table, hrun, hc'⟩ := hc.remove hslot
        ((hroom hm).resolve_left fun h => h0 (h.mpr rfl)) hfind
      rw [hfind]
      dsimp only
      rw [hrun]
      exact ⟨table, w.fs.indexHeads, rfl, hc'⟩
    · rw [hfind, hsame h0]
      exact ⟨w.fs.buckets, w.fs.indexHeads, rfl, hc⟩
    · rw [hfind, hsame h0]
      exact ⟨w.fs.buckets, w.fs.indexHeads, rfl, hc⟩

/-- `fffs_index_remove` of a slot that is not there. -/
theorem indexRemove_absent (hc : CacheIs w.fs f) (hslot : slot ≠ 0) (h0 : f slot = 0) :
    (indexRemove slot).run w = (.ok (), w) := by
  unfold CacheIs at hc
  rw [indexRemove, bind_of_ok (run_getFs w)]
  cases hm : Opts.indexCacheMode with
  | none => rfl
  | fullSlotHeads =>
    rw [hm] at hc
    have hheads : (fun s => if s = slot then 0 else w.fs.indexHeads s) = w.fs.indexHeads := by
      funext s
      by_cases hs : s = slot
      · rw [if_pos hs, hs, hc, h0]
      · rw [if_neg hs]
    dsimp only
    rw [run_modifyFs, hheads]
  | hashHeads =>
    rw [hm] at hc
    dsimp only at hc ⊢
    rw [if_neg hslot]
    rcases hc.find hslot with ⟨p, -, -, -, hne⟩ | ⟨p, -, hfind, -, -⟩ | ⟨hfind, -, -⟩
    · exact absurd h0 hne
    · rw [hfind]
      rfl
    · rw [hfind]
      rfl

/-- `fffs_index_set`. -/
theorem indexSet_run (hc : CacheIs w.fs f) (hslot : slot ≠ 0) (hroom : cacheRoom w.fs f slot head) :
    ∃ b heads, (indexSet slot head).run w = (.ok (), w.withCache b heads) ∧
      CacheIs (w.withCache b heads).fs (Function.update f slot head) := by
  rw [indexSet]
  by_cases hhead : head = 0
  · rw [if_pos hhead]
    subst hhead
    exact indexRemove_run hc hslot hroom
  · rw [if_neg hhead]
    exact indexInsert_run hc hslot hhead hroom

/-- The lookup of a cached build. -/
theorem indexHeadForSlot_cached (hc : CacheIs w.fs f) (hmode : Opts.indexCacheMode ≠ .none)
    (hslot : slot ≠ 0) :
    (indexHeadForSlot slot).run w = (.ok (if f slot = 0 then none else some (f slot)), w) := by
  unfold CacheIs at hc
  rw [indexHeadForSlot, bind_of_ok (run_getFs w)]
  cases hm : Opts.indexCacheMode with
  | none => exact absurd hm hmode
  | fullSlotHeads =>
    rw [hm] at hc
    dsimp only at hc ⊢
    rw [hc]
    rfl
  | hashHeads =>
    rw [hm] at hc
    dsimp only at hc ⊢
    rw [if_neg hslot]
    rcases hc.find hslot with ⟨p, -, hfind, hb, h0⟩ | ⟨p, -, hfind, -, h0⟩ | ⟨hfind, h0, -⟩
    · rw [hfind, if_neg h0, ← (bucketAt_eq_some.mp hb).2.2]
      rfl
    · rw [hfind, if_pos h0]
      rfl
    · rw [hfind, if_pos h0]
      rfl

/-- A table without room for the record: the cache stays as it is. -/
theorem indexSet_full (hc : CacheIs w.fs f) (hslot : slot ≠ 0) (hroom : ¬ cacheRoom w.fs f slot head) :
    (indexSet slot head).run w = (.error (if head = 0 then .diverges else .noSpace), w) := by
  rw [cacheRoom, Classical.not_imp, not_or] at hroom
  obtain ⟨hmode, hne, hfull⟩ := hroom
  unfold CacheIs at hc
  rw [hmode] at hc
  dsimp only at hc
  by_cases hhead : head = 0
  · have hf : f slot ≠ 0 := fun h0 => hne ⟨fun _ => hhead, fun _ => h0⟩
    rw [indexSet, if_pos hhead, if_pos hhead, indexRemove, bind_of_ok (run_getFs w), hmode]
    dsimp only
    rw [if_neg hslot]
    rcases hc.find hslot with ⟨p, -, hfind, -⟩ | ⟨p, -, -, -, h0⟩ | ⟨-, h0, -⟩
    · rw [hfind]
      dsimp only
      cases hremove : removeBucketAt w.fs.indexHashTableSize w.fs.buckets p with
      | none => rfl
      | some table => exact absurd (hc.table.room_of_remove hremove) hfull
    · exact absurd h0 hf
    · exact absurd h0 hf
  · have hf : f slot = 0 := by
      by_contra h0
      exact hne ⟨fun h => absurd h h0, fun h => absurd h hhead⟩
    rw [indexSet, if_neg hhead, if_neg hhead, indexInsert, bind_of_ok (run_getFs w), hmode]
    dsimp only
    rw [if_neg hslot]
    rcases hc.find hslot with ⟨p, -, -, -, h0⟩ | ⟨p, hp, -, hempty, -⟩ | ⟨hfind, -⟩
    · exact absurd hf h0
    · exact absurd ⟨p, hp, hempty⟩ hfull
    · rw [hfind]
      rfl

theorem cacheRoom_of_set (hc : CacheIs w.fs f) (hslot : slot ≠ 0)
    (h : (indexSet slot head).run w = (.ok (), w')) : cacheRoom w.fs f slot head := by
  by_contra hroom
  rw [indexSet_full hc hslot hroom] at h
  cases h

/-- `fffs_index_set` on any table: the cache holds a map again. -/
theorem indexSet_cases (hc : CacheIs w.fs f) (hslot : slot ≠ 0) :
    ∃ r b heads g, (indexSet slot head).run w = (r, w.withCache b heads) ∧
      CacheIs (w.withCache b heads).fs g := by
  by_cases hroom : cacheRoom w.fs f slot head
  · obtain ⟨b, heads, hrun, hc'⟩ := indexSet_run hc hslot hroom
    exact ⟨_, b, heads, _, hrun, hc'⟩
  · exact ⟨_, w.fs.buckets, w.fs.indexHeads, f, indexSet_full hc hslot hroom, hc⟩

end Fastffs
