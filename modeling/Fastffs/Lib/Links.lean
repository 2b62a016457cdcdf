import Mathlib.Tactic

/-!
# Chains of links

`next` says which node a node links to, and every node has a weight.  A consumer that
follows the links until it has passed `want` of weight goes on forever exactly when it
comes to a ring of weightless nodes before (`Starves`).
-/

namespace Links

variable {α : Type*} {next : α → Option α} {weigh : α → Nat}

/-- The node `n` links on. -/
def follow (next : α → Option α) : Nat → α → Option α
  | 0, a => some a
  | n + 1, a => (next a).bind (follow next n)

/-- The weight of the first `n` nodes. -/
def weight (next : α → Option α) (weigh : α → Nat) : Nat → α → Nat
  | 0, _ => 0
  | n + 1, a => weigh a + (next a).elim 0 (weight next weigh n)

/-- The links of a node lead back to it, and no node on the way weighs anything. -/
def EmptyRing (next : α → Option α) (weigh : α → Nat) (a : α) : Prop :=
  ∃ n, 0 < n ∧ follow next n a = some a ∧ weight next weigh n a = 0

/-- Less than `want` of weight stands before an empty ring. -/
def Starves (next : α → Option α) (weigh : α → Nat) (want : Nat) (a : α) : Prop :=
  ∃ n b, follow next n a = some b ∧ EmptyRing next weigh b ∧ weight next weigh n a < want

theorem follow_add {m : Nat} {a b : α} (h : follow next m a = some b) (n : Nat) :
    follow next (m + n) a = follow next n b := by
  induction m generalizing a with
  | zero =>
    cases h
    rw [Nat.zero_add]
  | succ m ih =>
    rw [follow] at h
    rw [Nat.succ_add, follow]
    cases hnext : next a with
    | none => simp [hnext] at h
    | some c =>
      rw [hnext, Option.bind_some] at h
      exact ih h

theorem weight_add {m : Nat} {a b : α} (h : follow next m a = some b) (n : Nat) :
    weight next weigh (m + n) a = weight next weigh m a + weight next weigh n b := by
  induction m generalizing a with
  | zero =>
    cases h
    rw [Nat.zero_add, weight, Nat.zero_add]
  | succ m ih =>
    rw [follow] at h
    rw [Nat.succ_add, weight, weight]
    cases hnext : next a with
    | none => simp [hnext] at h
    | some c =>
      rw [hnext, Option.bind_some] at h
      simp only [Option.elim_some, ih h]
      omega

/-- A consumer starves at a node exactly when it starves at the next one. -/
theorem starves_iff {want : Nat} {a : α} :
    Starves next weigh want a ↔ ∃ b, next a = some b ∧ Starves next weigh (want - weigh a) b := by
  constructor
  · rintro ⟨n, b, hfollow, hring, hlt⟩
    cases n with
    | zero =>
      -- the node is on the ring itself, so one round more leads back to it
      cases hfollow
      obtain ⟨m, hm, hback, hempty⟩ := hring
      obtain ⟨m, rfl⟩ := Nat.exists_eq_succ_of_ne_zero (Nat.pos_iff_ne_zero.mp hm)
      rw [follow] at hback
      rw [weight] at hempty
      cases hnext : next a with
      | none => simp [hnext] at hback
      | some c =>
        rw [hnext, Option.bind_some] at hback
        rw [hnext, Option.elim_some] at hempty
        refine ⟨c, rfl, m, a, hback, ⟨m + 1, hm, ?_, ?_⟩, ?_⟩
        · rw [follow, hnext, Option.bind_some, hback]
        · rw [weight, hnext, Option.elim_some, hempty]
        · rw [weight] at hlt
          omega
    | succ n =>
      rw [follow] at hfollow
      rw [weight] at hlt
      cases hnext : next a with
      | none => simp [hnext] at hfollow
      | some c =>
        rw [hnext, Option.bind_some] at hfollow
        rw [hnext, Option.elim_some] at hlt
        exact ⟨c, rfl, n, b, hfollow, hring, by omega⟩
  · rintro ⟨c, hnext, n, b, hfollow, hring, hlt⟩
    refine ⟨n + 1, b, ?_, hring, ?_⟩
    · rw [follow, hnext, Option.bind_some, hfollow]
    · rw [weight, hnext, Option.elim_some]
      omega

theorem Starves.pos {want : Nat} {a : α} (h : Starves next weigh want a) : 0 < want := by
  obtain ⟨n, b, -, -, hlt⟩ := h
  exact Nat.zero_lt_of_lt hlt

/-- At most `n` weightless nodes come before the end of the chain or a node with weight. -/
inductive Leaves (next : α → Option α) (weigh : α → Nat) : Nat → α → Prop where
  | stop {n : Nat} {a : α} : next a = none → Leaves next weigh n a
  | weighs {n : Nat} {a : α} : 0 < weigh a → Leaves next weigh n a
  | step {n : Nat} {a b : α} : next a = some b → Leaves next weigh n b → Leaves next weigh (n + 1) a

/-- A chain that does not leave has weightless nodes only. -/
theorem follow_of_not_leaves {n : Nat} {a : α} (h : ¬ Leaves next weigh n a) {i : Nat} (hi : i ≤ n) :
    ∃ b, follow next i a = some b ∧ next b ≠ none ∧ weight next weigh i a = 0 := by
  induction i generalizing n a with
  | zero =>
    refine ⟨a, rfl, fun hnone => h (.stop hnone), rfl⟩
  | succ i ih =>
    obtain ⟨n, rfl⟩ := Nat.exists_eq_succ_of_ne_zero (Nat.pos_iff_ne_zero.mp (Nat.lt_of_lt_of_le i.succ_pos hi))
    have hzero : weigh a = 0 := Nat.eq_zero_of_not_pos fun hpos => h (.weighs hpos)
    cases hnext : next a with
    | none => exact absurd (.stop hnext) h
    | some c =>
      obtain ⟨b, hfollow, hgoes, hweight⟩ := ih (fun hc => h (.step hnext hc)) (Nat.le_of_succ_le_succ hi)
      refine ⟨b, ?_, hgoes, ?_⟩
      · rw [follow, hnext, Option.bind_some, hfollow]
      · rw [weight, hnext, Option.elim_some, hzero, hweight]

/-- A chain on finitely many nodes leaves its weightless nodes, or a consumer starves. -/
theorem leaves_of_not_starves {S : Finset α} (hS : ∀ a, next a ≠ none → a ∈ S) {want : Nat} {a : α}
    (hwant : 0 < want) (h : ¬ Starves next weigh want a) : Leaves next weigh S.card a := by
  by_contra hstays
  have hall : ∀ i ∈ Finset.range (S.card + 1), ∃ b ∈ S, follow next i a = some b ∧ weight next weigh i a = 0 := by
    intro i hi
    obtain ⟨b, hfollow, hgoes, hweight⟩ :=
      follow_of_not_leaves hstays (Nat.lt_succ_iff.mp (Finset.mem_range.mp hi))
    exact ⟨b, hS b hgoes, hfollow, hweight⟩
  have : Nonempty α := ⟨a⟩
  choose! node hnode hfollow hweight using hall
  have hcard : S.card < (Finset.range (S.card + 1)).card := by
    rw [Finset.card_range]
    exact Nat.lt_succ_self _
  obtain ⟨i, hi, j, hj, hne, heq⟩ := Finset.exists_ne_map_eq_of_card_lt_of_maps_to hcard hnode
  wlog hlt : i < j generalizing i j
  · exact this j hj i hi hne.symm heq.symm (by omega)
  obtain ⟨m, rfl⟩ := Nat.exists_eq_add_of_lt hlt
  rw [Nat.add_assoc] at hj heq
  have hback := follow_add (hfollow i hi) (m + 1)
  rw [hfollow _ hj, ← heq] at hback
  have hempty : weight next weigh (m + 1) (node i) = 0 := by
    have hsum : weight next weigh (i + (m + 1)) a = _ := weight_add (hfollow i hi) (m + 1)
    rw [hweight _ hj] at hsum
    omega
  refine h ⟨i, node i, hfollow i hi, ⟨m + 1, Nat.succ_pos _, hback.symm, hempty⟩, ?_⟩
  rw [hweight i hi]
  exact hwant

end Links
