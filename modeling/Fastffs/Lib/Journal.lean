import Mathlib.Tactic

/-!
# Journals

A journal is a list of entries, the newest last.  An entry gives a value to a key,
and the value `0` takes the key away.  `Journal.replay f es` is the map `f` after
the entries `es`, and `Journal.live es` are the keys that have a value after them.

`Compacts.replay_eq` is the step of a compacting journal: the entries of the front that
are still current are copied to the end, and the front is dropped.  A table that can take
the entries of the journal one after the other can take those of the compacted one
(`Compacts.fits`).
-/

namespace Journal

variable {κ ν : Type*} [DecidableEq κ] {f g : κ → ν} {es front rest copy : List (κ × ν)} {k : κ}

/-- The map after the entries of a journal. -/
def replay (f : κ → ν) : List (κ × ν) → κ → ν
  | [] => f
  | e :: es => replay (Function.update f e.1 e.2) es

@[simp] theorem replay_nil (f : κ → ν) : replay f [] = f := rfl

@[simp] theorem replay_cons (f : κ → ν) (e : κ × ν) (es : List (κ × ν)) :
    replay f (e :: es) = replay (Function.update f e.1 e.2) es := rfl

theorem replay_append (f : κ → ν) (es es' : List (κ × ν)) :
    replay f (es ++ es') = replay (replay f es) es' := by
  induction es generalizing f with
  | nil => rfl
  | cons e es ih => exact ih _

/-- A key without an entry keeps its value. -/
theorem replay_of_notMem (h : k ∉ es.map Prod.fst) : replay f es k = f k := by
  induction es generalizing f with
  | nil => rfl
  | cons e es ih =>
    rw [List.map_cons, List.mem_cons, not_or] at h
    rw [replay_cons, ih h.2, Function.update_of_ne h.1]

/-- The value of a key with an entry is that of one of its entries. -/
theorem replay_of_mem (h : k ∈ es.map Prod.fst) :
    ∃ e ∈ es, e.1 = k ∧ ∀ f : κ → ν, replay f es k = e.2 := by
  induction es with
  | nil => simp at h
  | cons e es ih =>
    by_cases hk : k ∈ es.map Prod.fst
    · obtain ⟨e', he', hkey, hval⟩ := ih hk
      exact ⟨e', List.mem_cons_of_mem _ he', hkey, fun f => hval _⟩
    · rw [List.map_cons, List.mem_cons] at h
      have hkey := (h.resolve_right hk).symm
      refine ⟨e, List.mem_cons_self, hkey, fun f => ?_⟩
      rw [replay_cons, replay_of_notMem hk, ← hkey, Function.update_self]

/-- The value of a key with an entry does not depend on the map before. -/
theorem replay_congr (h : k ∈ es.map Prod.fst) (f g : κ → ν) : replay f es k = replay g es k := by
  obtain ⟨e, -, -, hval⟩ := replay_of_mem h
  rw [hval, hval]

/-- The value of the last entry of a key. -/
def latest (k : κ) : List (κ × ν) → Option ν
  | [] => none
  | e :: es => (latest k es).or (if e.1 = k then some e.2 else none)

@[simp] theorem latest_singleton (k : κ) (e : κ × ν) :
    latest k [e] = if e.1 = k then some e.2 else none := rfl

theorem latest_append (k : κ) (es es' : List (κ × ν)) :
    latest k (es ++ es') = (latest k es').or (latest k es) := by
  induction es with
  | nil => simp [latest]
  | cons e es ih => rw [List.cons_append, latest, latest, ih, Option.or_assoc]

theorem latest_eq_none_iff : latest k es = none ↔ k ∉ es.map Prod.fst := by
  induction es with
  | nil => simp [latest]
  | cons e es ih =>
    rw [latest, Option.or_eq_none_iff, ih, List.map_cons, List.mem_cons, not_or, and_comm]
    simp [eq_comm]

/-- The map after a journal is given by the last entries. -/
theorem replay_eq_latest (f : κ → ν) (es : List (κ × ν)) (k : κ) :
    replay f es k = (latest k es).getD (f k) := by
  induction es generalizing f with
  | nil => rfl
  | cons e es ih =>
    rw [replay_cons, ih, latest]
    cases latest k es with
    | some v => rfl
    | none =>
      rw [Option.none_or, Option.getD_none]
      by_cases hk : e.1 = k
      · rw [if_pos hk, Option.getD_some, hk, Function.update_self]
      · rw [if_neg hk, Option.getD_none, Function.update_of_ne (Ne.symm hk)]

section Absent

variable [Zero ν]

/-- A key with a value has an entry. -/
theorem mem_of_replay_ne (h : replay 0 es k ≠ 0) : k ∈ es.map Prod.fst := by
  by_contra hk
  exact h (replay_of_notMem hk)

/-! ## Compaction -/

/-- The entries copied out of the front are current, and they cover every key whose
value comes from the front. -/
structure Compacts (front rest copy : List (κ × ν)) : Prop where
  current : ∀ e ∈ copy, replay 0 (front ++ rest) e.1 = e.2
  covers : ∀ k, k ∉ rest.map Prod.fst → replay 0 front k ≠ 0 → k ∈ copy.map Prod.fst

/-- Dropping the front changes no value. -/
theorem Compacts.replay_eq (h : Compacts front rest copy) :
    replay (0 : κ → ν) (rest ++ copy) = replay 0 (front ++ rest) := by
  funext k
  by_cases hc : k ∈ copy.map Prod.fst
  · obtain ⟨e, he, hkey, hval⟩ := replay_of_mem hc
    rw [replay_append, hval, ← hkey, h.current e he]
  · rw [replay_append, replay_of_notMem hc, replay_append]
    by_cases hr : k ∈ rest.map Prod.fst
    · exact replay_congr hr _ _
    · rw [replay_of_notMem hr, replay_of_notMem hr]
      by_contra hne
      exact hc (h.covers k hr (Ne.symm hne))

/-- A key that is live after a part of the journal is live after an earlier start. -/
theorem replay_ne_of_suffix (h : replay (0 : κ → ν) rest k ≠ 0) : replay 0 (front ++ rest) k ≠ 0 := by
  rw [replay_append, replay_congr (mem_of_replay_ne h) _ 0]
  exact h

/-- The copies make no key live that was not live before. -/
theorem Compacts.replay_ne (h : Compacts front rest copy) {c : List (κ × ν)} (hc : c <+: copy)
    (hk : replay (0 : κ → ν) (rest ++ c) k ≠ 0) : replay 0 (front ++ rest) k ≠ 0 := by
  by_cases hkc : k ∈ c.map Prod.fst
  · obtain ⟨e, he, hkey, hval⟩ := replay_of_mem hkc
    rw [replay_append, hval] at hk
    rw [← hkey, h.current e (hc.subset he)]
    exact hk
  · rw [replay_append, replay_of_notMem hkc] at hk
    exact replay_ne_of_suffix hk

/-! ## Live keys -/

variable [DecidableEq ν]

/-- The keys that have a value after the entries. -/
def live (es : List (κ × ν)) : Finset κ :=
  (es.map Prod.fst).toFinset.filter fun k => replay (0 : κ → ν) es k ≠ 0

theorem mem_live : k ∈ live es ↔ replay (0 : κ → ν) es k ≠ 0 := by
  rw [live, Finset.mem_filter, List.mem_toFinset]
  exact ⟨fun h => h.2, fun h => ⟨mem_of_replay_ne h, h⟩⟩

/-- A table of `n` keys that holds the keys of `es` can take the entry `e`: the entry adds
no key and takes none away, or a place is free. -/
def Takes (n : Nat) (es : List (κ × ν)) (e : κ × ν) : Prop :=
  (replay (0 : κ → ν) es e.1 = 0 ↔ e.2 = 0) ∨ (live es).card < n

instance (n : Nat) (es : List (κ × ν)) (e : κ × ν) : Decidable (Takes n es e) := by
  unfold Takes; infer_instance

/-- A table of `n` keys can take the entries one after the other. -/
def Fits (n : Nat) (es : List (κ × ν)) : Prop := ∀ p e, p ++ [e] <+: es → Takes n p e

theorem Fits.initial {n : Nat} {p : List (κ × ν)} (h : Fits n es) (hp : p <+: es) : Fits n p :=
  fun q e hq => h q e (hq.trans hp)

theorem fits_append_singleton {n : Nat} {e : κ × ν} : Fits n (es ++ [e]) ↔ Fits n es ∧ Takes n es e := by
  constructor
  · exact fun h => ⟨h.initial (List.prefix_append _ _), h es e List.prefix_rfl⟩
  · rintro ⟨h, he⟩ p e' hp
    rcases List.prefix_concat_iff.mp hp with heq | hp
    · obtain ⟨hp', he'⟩ := List.append_inj' heq rfl
      rw [hp', List.singleton_inj.mp he']
      exact he
    · exact h p e' hp

theorem fits_nil (n : Nat) : Fits n ([] : List (κ × ν)) := by
  intro p e hp
  simp at hp

instance Fits.decidable (n : Nat) (es : List (κ × ν)) : Decidable (Fits n es) :=
  decidable_of_iff (∀ i (h : i < es.length), Takes n (es.take i) es[i]) <| by
    constructor
    · rintro h p e ⟨q, rfl⟩
      have hp := h p.length (by simp)
      simpa using hp
    · intro h i hi
      refine h _ _ ?_
      rw [List.take_append_getElem hi]
      exact List.take_prefix _ _

/-- No stage has more keys than the table. -/
theorem Fits.card_le {n : Nat} (h : Fits n es) : (live es).card ≤ n := by
  induction es using List.reverseRecOn with
  | nil => simp [live]
  | append_singleton es e ih =>
    obtain ⟨h, he⟩ := fits_append_singleton.mp h
    have hval : ∀ k, replay (0 : κ → ν) (es ++ [e]) k = if k = e.1 then e.2 else replay 0 es k := by
      intro k
      rw [replay_append, replay_cons, replay_nil, Function.update_apply]
    rcases he with he | he
    · refine (Finset.card_le_card fun k hk => ?_).trans (ih h)
      rw [mem_live, hval] at hk
      rw [mem_live]
      split at hk
      · next heq =>
        rw [heq]
        exact fun h0 => hk (he.mp h0)
      · exact hk
    · have hsub : live (es ++ [e]) ⊆ insert e.1 (live es) := by
        intro k hk
        rw [mem_live, hval] at hk
        rw [Finset.mem_insert, mem_live]
        split at hk
        · next heq => exact .inl heq
        · exact .inr hk
      have hcard := (Finset.card_le_card hsub).trans (Finset.card_insert_le _ _)
      omega

/-- A compacted journal still fits. -/
theorem Compacts.fits {n : Nat} (h : Compacts front rest copy) (hcopy : ∀ e ∈ copy, e.2 ≠ 0)
    (hf : Fits n (front ++ rest)) : Fits n (rest ++ copy) := by
  -- a stage with fewer keys than one before has a free place
  have hfree : ∀ {p q : List (κ × ν)} {k : κ}, q <+: front ++ rest → live p ⊆ live q → k ∈ live q → k ∉ live p →
      (live p).card < n := by
    intro p q k hq hsub hin hout
    have hlt := Finset.card_lt_card (Finset.ssubset_iff_subset_ne.mpr
      ⟨hsub, fun heq => hout (heq ▸ hin)⟩)
    exact hlt.trans_le (hf.initial hq).card_le
  intro p e hp
  by_cases hrest : p ++ [e] <+: rest
  · have hpre : front ++ p ++ [e] <+: front ++ rest := by
      rw [List.append_assoc]
      exact (List.prefix_append_right_inj front).mpr hrest
    have hsub : live p ⊆ live (front ++ p) := fun k hk => mem_live.mpr (replay_ne_of_suffix (mem_live.mp hk))
    rcases hf _ _ hpre with he | he
    · by_cases hk : e.1 ∈ p.map Prod.fst
      · left
        rwa [replay_append, replay_congr hk _ 0] at he
      · have h0 : replay (0 : κ → ν) p e.1 = 0 := replay_of_notMem hk
        by_cases hv : e.2 = 0
        · exact .inl ⟨fun _ => hv, fun _ => h0⟩
        · refine .inr (hfree ((List.prefix_append _ _).trans hpre) hsub
            (mem_live.mpr fun h => hv (he.mp h)) fun hin => mem_live.mp hin h0)
    · exact .inr ((Finset.card_le_card hsub).trans_lt he)
  · have hcmp := List.prefix_or_prefix_of_prefix hp (List.prefix_append rest copy)
    have hle := hcmp.resolve_left hrest
    obtain ⟨c, rfl⟩ := (List.prefix_concat_iff.mp hle).resolve_left fun heq => hrest (heq ▸ List.prefix_rfl)
    rw [List.append_assoc] at hp
    have hc : c ++ [e] <+: copy := (List.prefix_append_right_inj rest).mp hp
    have he : e ∈ copy := hc.subset (by simp)
    have hcur : replay (0 : κ → ν) (front ++ rest) e.1 ≠ 0 := by
      rw [h.current e he]
      exact hcopy e he
    have hsub : live (rest ++ c) ⊆ live (front ++ rest) := fun k hk =>
      mem_live.mpr (h.replay_ne ((List.prefix_append _ _).trans hc) (mem_live.mp hk))
    by_cases hv : replay (0 : κ → ν) (rest ++ c) e.1 = 0
    · exact .inr (hfree List.prefix_rfl hsub (mem_live.mpr hcur) fun hin => mem_live.mp hin hv)
    · exact .inl ⟨fun h0 => absurd h0 hv, fun h0 => absurd h0 (hcopy e he)⟩

end Absent

end Journal
