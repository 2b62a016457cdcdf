import Mathlib.Tactic

/-!
# Linear probing

A table of `n` positions, each empty or with a key and a value.  A key is looked
for from its home position onward, around the end of the table, up to the first
empty position.  `Probing` is what makes this work: no position between the home
of a key and the key itself is empty.

A removal leaves a hole.  It walks on from the hole and moves every entry whose
probe path crosses the hole back into it, until it meets an empty position.
`Gap` is the invariant of that walk, with one rule for each of its steps.
-/

namespace Probe

variable {κ ν : Type}

/-- The steps from position `a` to position `b`, around the end of the table. -/
def steps (n a b : Nat) : Nat := if a ≤ b then b - a else b + n - a

/-- The position after `i`. -/
def next (n i : Nat) : Nat := if i + 1 < n then i + 1 else 0

theorem next_lt {n i : Nat} (h : 0 < n) : next n i < n := by
  unfold next
  split <;> omega

theorem steps_lt {n a b : Nat} (ha : a < n) (hb : b < n) : steps n a b < n := by
  unfold steps
  split <;> omega

theorem steps_next {n a i : Nat} (ha : a < n) (hi : i < n) (hne : next n i ≠ a) :
    steps n a (next n i) = steps n a i + 1 := by
  unfold steps next at *
  split_ifs at * <;> omega

/-- No key sits behind an empty position of its probe path. -/
structure Probing (n : Nat) (home : κ → Nat) (t : Nat → Option (κ × ν)) : Prop where
  home_lt : ∀ k, home k < n
  unique : ∀ p q k v v', p < n → q < n → t p = some (k, v) → t q = some (k, v') → p = q
  reach : ∀ p k v, p < n → t p = some (k, v) →
    ∀ q < n, steps n (home k) q < steps n (home k) p → t q ≠ none

namespace Probing

variable {n : Nat} {home : κ → Nat} {t : Nat → Option (κ × ν)} {k : κ} {v : ν} {q : Nat}

theorem empty (hhome : ∀ k, home k < n) : Probing (ν := ν) n home fun _ => none where
  home_lt := hhome
  unique := fun _ _ _ _ _ _ _ h => by simp at h
  reach := fun _ _ _ _ h => by simp at h

/-- A probe that ends at an empty position has missed nothing. -/
theorem absent (hp : Probing n home t) (hq : q < n) (hempty : t q = none)
    (hclose : ∀ p < n, steps n (home k) p < steps n (home k) q → ∀ v, t p ≠ some (k, v)) :
    ∀ p < n, ∀ v, t p ≠ some (k, v) := by
  intro p hpn v hk
  rcases Nat.lt_trichotomy (steps n (home k) p) (steps n (home k) q) with hlt | heq | hgt
  · exact hclose p hpn hlt v hk
  · have hhome := hp.home_lt k
    have hpq : p = q := by
      unfold steps at heq
      split_ifs at heq <;> omega
    rw [hpq, hempty] at hk
    simp at hk
  · exact hp.reach p k v hpn hk q hq hgt hempty

/-- A new key goes to the first empty position of its probe path. -/
theorem insert (hp : Probing n home t)
    (hclose : ∀ p < n, steps n (home k) p < steps n (home k) q → t p ≠ none)
    (habsent : ∀ p < n, ∀ v, t p ≠ some (k, v)) (v : ν) :
    Probing n home (Function.update t q (some (k, v))) where
  home_lt := hp.home_lt
  unique := by
    intro p p' k' v1 v2 h1 h2 hk1 hk2
    simp only [Function.update_apply] at hk1 hk2
    split_ifs at hk1 hk2 with e1 e2 e2
    · rw [e1, e2]
    · simp only [Option.some.injEq, Prod.mk.injEq] at hk1
      exact absurd (hk1.1 ▸ hk2) (habsent p' h2 v2)
    · simp only [Option.some.injEq, Prod.mk.injEq] at hk2
      exact absurd (hk2.1 ▸ hk1) (habsent p h1 v1)
    · exact hp.unique p p' k' v1 v2 h1 h2 hk1 hk2
  reach := by
    intro p k' v' hpn hk' r hr hlt
    simp only [Function.update_apply] at hk' ⊢
    split_ifs with e1
    · simp
    · split_ifs at hk' with e2
      · simp only [Option.some.injEq, Prod.mk.injEq] at hk'
        obtain ⟨rfl, -⟩ := hk'
        exact hclose r hr (e2 ▸ hlt)
      · exact hp.reach p k' v' hpn hk' r hr hlt

/-- A key takes another value. -/
theorem update (hp : Probing n home t) (hk : t q = some (k, v)) (v' : ν) :
    Probing n home (Function.update t q (some (k, v'))) where
  home_lt := hp.home_lt
  unique := by
    intro p p' k' v1 v2 h1 h2 hk1 hk2
    have hold : ∀ r v1, Function.update t q (some (k, v')) r = some (k', v1) →
        ∃ v0, t r = some (k', v0) := by
      intro r v1 hr
      simp only [Function.update_apply] at hr
      split_ifs at hr with e
      · simp only [Option.some.injEq, Prod.mk.injEq] at hr
        exact ⟨v, by rw [e, hk, hr.1]⟩
      · exact ⟨v1, hr⟩
    obtain ⟨w1, hw1⟩ := hold p v1 hk1
    obtain ⟨w2, hw2⟩ := hold p' v2 hk2
    exact hp.unique p p' k' w1 w2 h1 h2 hw1 hw2
  reach := by
    intro p k' v1 hpn hk1 r hr hlt
    simp only [Function.update_apply] at hk1 ⊢
    split_ifs with e1
    · simp
    · split_ifs at hk1 with e2
      · simp only [Option.some.injEq, Prod.mk.injEq] at hk1
        obtain ⟨rfl, -⟩ := hk1
        exact hp.reach q k v (e2 ▸ hpn) hk r hr (e2 ▸ hlt)
      · exact hp.reach p k' v1 hpn hk1 r hr hlt

end Probing

/-- The invariant of a removal.  `hole` is the position that is to be filled or
emptied, `idx` the next position to look at.  The entries between them stay where
they are: their probe paths begin after the hole. -/
structure Gap (n : Nat) (home : κ → Nat) (t : Nat → Option (κ × ν)) (hole idx : Nat) : Prop where
  home_lt : ∀ k, home k < n
  hole_lt : hole < n
  idx_lt : idx < n
  idx_ne : idx ≠ hole
  unique : ∀ p q k v v', p < n → q < n → p ≠ hole → q ≠ hole →
    t p = some (k, v) → t q = some (k, v') → p = q
  reach : ∀ p k v, p < n → p ≠ hole → t p = some (k, v) →
    ∀ q < n, steps n (home k) q < steps n (home k) p → q ≠ hole → t q ≠ none
  passed : ∀ p < n, p ≠ hole → steps n hole p < steps n hole idx →
    ∃ k v, t p = some (k, v) ∧ steps n (home k) p < steps n hole p

namespace Gap

variable {n : Nat} {home : κ → Nat} {t : Nat → Option (κ × ν)} {hole idx : Nat} {k : κ} {v : ν}

/-- The walk begins right after the position that is removed. -/
theorem start (hp : Probing n home t) (hhole : hole < n) (hne : next n hole ≠ hole) :
    Gap n home t hole (next n hole) where
  home_lt := hp.home_lt
  hole_lt := hhole
  idx_lt := next_lt (by omega)
  idx_ne := hne
  unique := fun p q k v v' h1 h2 _ _ hk1 hk2 => hp.unique p q k v v' h1 h2 hk1 hk2
  reach := fun p k v hpn _ hk q hq hlt _ => hp.reach p k v hpn hk q hq hlt
  passed := by
    intro p hpn hph hlt
    unfold steps next at *
    split_ifs at * <;> omega

/-- The entry at `idx` crosses the hole and moves into it. -/
theorem move (hg : Gap n home t hole idx) (hk : t idx = some (k, v))
    (hcross : steps n (home k) hole < steps n (home k) idx) (hne : next n idx ≠ idx) :
    Gap n home (Function.update t hole (some (k, v))) idx (next n idx) where
  home_lt := hg.home_lt
  hole_lt := hg.idx_lt
  idx_lt := next_lt (by have := hg.hole_lt; omega)
  idx_ne := hne
  unique := by
    intro p q k' v1 v2 h1 h2 hp hq hk1 hk2
    simp only [Function.update_apply] at hk1 hk2
    split_ifs at hk1 hk2 with e1 e2 e2
    · rw [e1, e2]
    · simp only [Option.some.injEq, Prod.mk.injEq] at hk1
      exact absurd (hg.unique q idx k' v2 v h2 hg.idx_lt e2 hg.idx_ne hk2 (hk1.1 ▸ hk)) hq
    · simp only [Option.some.injEq, Prod.mk.injEq] at hk2
      exact absurd (hg.unique p idx k' v1 v h1 hg.idx_lt e1 hg.idx_ne hk1 (hk2.1 ▸ hk)) hp
    · exact hg.unique p q k' v1 v2 h1 h2 e1 e2 hk1 hk2
  reach := by
    intro p k' v' hpn hp hk' q hq hlt hqi
    simp only [Function.update_apply] at hk' ⊢
    split_ifs with e1
    · simp
    · split_ifs at hk' with e2
      · simp only [Option.some.injEq, Prod.mk.injEq] at hk'
        obtain ⟨rfl, -⟩ := hk'
        exact hg.reach idx k v hg.idx_lt hg.idx_ne hk q hq (by rw [e2] at hlt; omega) e1
      · exact hg.reach p k' v' hpn e2 hk' q hq hlt e1
  passed := by
    intro p hpn hph hlt
    have := hg.idx_lt
    unfold steps next at hlt
    split_ifs at hlt <;> omega

/-- The entry at `idx` does not cross the hole and stays. -/
theorem skip (hg : Gap n home t hole idx) (hk : t idx = some (k, v))
    (hcross : ¬ steps n (home k) hole < steps n (home k) idx) (hne : next n idx ≠ hole) :
    Gap n home t hole (next n idx) where
  home_lt := hg.home_lt
  hole_lt := hg.hole_lt
  idx_lt := next_lt (by have := hg.hole_lt; omega)
  idx_ne := hne
  unique := hg.unique
  reach := hg.reach
  passed := by
    intro p hpn hph hlt
    have hstep := steps_next hg.hole_lt hg.idx_lt hne
    by_cases hpi : p = idx
    · refine ⟨k, v, hpi ▸ hk, ?_⟩
      have h1 := hg.home_lt k
      have h2 := hg.hole_lt
      have h3 := hg.idx_lt
      rw [hpi] at hph ⊢
      unfold steps at hcross ⊢
      split_ifs at * <;> omega
    · apply hg.passed p hpn hph
      have h2 := hg.hole_lt
      have h3 := hg.idx_lt
      rw [hstep] at hlt
      unfold steps at hlt ⊢
      split_ifs at * <;> omega

/-- The walk has met an empty position: the hole can be emptied. -/
theorem close (hg : Gap n home t hole idx) (hempty : t idx = none) :
    Probing n home (Function.update t hole none) where
  home_lt := hg.home_lt
  unique := by
    intro p q k v v' h1 h2 hk1 hk2
    simp only [Function.update_apply] at hk1 hk2
    split_ifs at hk1 hk2 with e1 e2
    exact hg.unique p q k v v' h1 h2 e1 e2 hk1 hk2
  reach := by
    intro p k v hpn hk q hq hlt
    simp only [Function.update_apply] at hk ⊢
    split_ifs at hk with e1
    have h1 := hg.home_lt k
    have h2 := hg.hole_lt
    have h3 := hg.idx_lt
    have hne := hg.idx_ne
    split_ifs with e2
    · -- the path of `p` would cross the hole
      exfalso
      rcases Nat.lt_trichotomy (steps n hole p) (steps n hole idx) with hd | hd | hd
      · obtain ⟨k', v', hk', hd'⟩ := hg.passed p hpn e1 hd
        rw [hk] at hk'
        simp only [Option.some.injEq, Prod.mk.injEq] at hk'
        obtain ⟨rfl, rfl⟩ := hk'
        rw [e2] at hlt
        unfold steps at *
        split_ifs at * <;> omega
      · have hpi : p = idx := by
          unfold steps at hd
          split_ifs at hd <;> omega
        rw [hpi, hempty] at hk
        simp at hk
      · refine hg.reach p k v hpn e1 hk idx h3 ?_ hne hempty
        rw [e2] at hlt
        unfold steps at *
        split_ifs at * <;> omega
    · exact hg.reach p k v hpn e1 hk q hq hlt e2

end Gap

end Probe
