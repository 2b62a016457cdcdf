import Fastffs.Backends

/-!
# The hash table as a finite map

`fffs_index_insert`, `fffs_index_remove` and `fffs_index_set` of the hash table
backend, in any sequence from the empty table of a mount.  The map they stand
for is a function from slots to optional heads.  A bucket may hold the head `0`
when `fffs_index_insert` is called with it, so an entry with that head is an
entry and not a free slot.

As long as every call leaves an empty bucket the table is the map.  In a full
table the loop of `remove_bucket_at` goes around without end.
-/

namespace Fastffs

open Prog Probe

/-! ## Calls -/

/-- A call that changes the table. -/
inductive TableCall where
  | insert (slot head : Nat)
  | remove (slot : Nat)
  | set (slot head : Nat)
deriving DecidableEq, Repr

/-- The slot of a call. -/
def TableCall.slot : TableCall → Nat
  | .insert slot _ => slot
  | .remove slot => slot
  | .set slot _ => slot

/-- The entry a call leaves for its slot. -/
def TableCall.entry : TableCall → Option Nat
  | .insert _ head => some head
  | .remove _ => none
  | .set _ head => headOf head

/-- The map after a call.  There is no slot `0`. -/
def TableCall.apply (g : Nat → Option Nat) (c : TableCall) : Nat → Option Nat :=
  if c.slot = 0 then g else Function.update g c.slot c.entry

/-- The map after a sequence of calls on an empty one. -/
def lastSet (cs : List TableCall) : Nat → Option Nat := cs.foldl TableCall.apply fun _ => none

section Calls

variable [Opts]

def TableCall.run : TableCall → M Unit
  | .insert slot head => indexInsert slot head
  | .remove slot => indexRemove slot
  | .set slot head => indexSet slot head

/-- The world after a sequence of calls. -/
def afterCalls (w : World) (cs : List TableCall) : World :=
  cs.foldl (fun w c => (c.run.run w).2) w

/-- Every call of the sequence leaves an empty bucket. -/
def leavesRoom (w : World) : List TableCall → Prop
  | [] => True
  | c :: cs => hashRoom (c.run.run w).2.fs ∧ leavesRoom (c.run.run w).2 cs

/-- A world of the hash table backend with an empty table. -/
structure EmptyTable (w : World) : Prop where
  mode : Opts.indexCacheMode = .hashHeads
  size_pow : w.fs.indexHashTableSize.isPowerOfTwo
  buckets : w.fs.buckets = List.replicate w.fs.indexHashTableSize {}

end Calls

/-! ## One call -/

section Step

variable [Opts] {w : World} {g : Nat → Option Nat} {slot head : Nat}

omit [Opts] in
theorem TableIs.empty {fs : Fs} (hpow : fs.indexHashTableSize.isPowerOfTwo)
    (hbuckets : fs.buckets = List.replicate fs.indexHashTableSize {}) : TableIs fs fun _ => none := by
  have hnone : bucketAt fs.buckets = fun _ => none := by
    funext p
    rw [bucketAt_eq_none, hbuckets, List.getD_eq_getElem?_getD, List.getElem?_replicate]
    split <;> rfl
  exact {
    size_pow := hpow
    length := by rw [hbuckets, List.length_replicate]
    probing := by
      rw [hnone]
      exact Probing.empty fun k => Nat.mod_lt _ (Nat.pos_of_isPowerOfTwo hpow)
    sound := by simp [hnone]
    complete := fun slot head h => by cases h }

omit [Opts] in
theorem TableIs.room_of_empty {fs : Fs} (h : TableIs fs fun _ => none) : hashRoom fs := by
  refine ⟨0, h.size_pos, Option.eq_none_iff_forall_ne_some.mpr fun e he => ?_⟩
  have hnone := h.sound 0 h.size_pos e.1 e.2 he
  cases hnone

/-- `fffs_index_head_for_slot`. -/
theorem TableIs.lookup (hmode : Opts.indexCacheMode = .hashHeads) (h : TableIs w.fs g)
    (hslot : slot ≠ 0) : (indexHeadForSlot slot).run w = (.ok (g slot), w) := by
  rw [indexHeadForSlot, bind_of_ok (run_getFs w), hmode]
  dsimp only
  rw [if_neg hslot]
  rcases h.find hslot with ⟨p, -, hfind, v, hb, hg⟩ | ⟨p, -, hfind, -, hg, -⟩ | ⟨hfind, hg, -⟩
  · rw [hfind, hg, ← (bucketAt_eq_some.mp hb).2.2]
    rfl
  · rw [hfind, hg]
    rfl
  · rw [hfind, hg]
    rfl

/-- `fffs_index_insert` into a table that has an empty bucket. -/
theorem TableIs.insert_run (hmode : Opts.indexCacheMode = .hashHeads) (h : TableIs w.fs g)
    (hslot : slot ≠ 0) (hroom : hashRoom w.fs) :
    ∃ b, (indexInsert slot head).run w = (.ok (), w.withCache b w.fs.indexHeads) ∧
      TableIs (w.withCache b w.fs.indexHeads).fs (Function.update g slot (some head)) := by
  rw [indexInsert, bind_of_ok (run_getFs w), hmode]
  dsimp only
  rw [if_neg hslot]
  rcases h.find hslot with ⟨p, -, hfind, -⟩ | ⟨p, -, hfind, -⟩ | ⟨-, -, hfull⟩
  · rw [hfind]
    exact ⟨_, rfl, h.insert hslot hfind⟩
  · rw [hfind]
    exact ⟨_, rfl, h.insert hslot hfind⟩
  · exact absurd hroom hfull

/-- `fffs_index_remove` from a table that has an empty bucket. -/
theorem TableIs.remove_run (hmode : Opts.indexCacheMode = .hashHeads) (h : TableIs w.fs g)
    (hslot : slot ≠ 0) (hroom : hashRoom w.fs) :
    ∃ b, (indexRemove slot).run w = (.ok (), w.withCache b w.fs.indexHeads) ∧
      TableIs (w.withCache b w.fs.indexHeads).fs (Function.update g slot none) := by
  rw [indexRemove, bind_of_ok (run_getFs w), hmode]
  dsimp only
  rw [if_neg hslot]
  have hsame : g slot = none → Function.update g slot none = g := fun h0 => by
    rw [← h0, Function.update_eq_self]
  rcases h.find hslot with ⟨p, -, hfind, -⟩ | ⟨p, -, hfind, -, hg, -⟩ | ⟨hfind, hg, -⟩
  · obtain ⟨table, hrun, ht⟩ := h.remove hslot hroom hfind
    rw [hfind]
    dsimp only
    rw [hrun]
    exact ⟨table, rfl, ht⟩
  · rw [hfind, hsame hg]
    exact ⟨w.fs.buckets, rfl, h⟩
  · rw [hfind, hsame hg]
    exact ⟨w.fs.buckets, rfl, h⟩

/-- A call on slot `0` is refused. -/
theorem TableCall.run_zero (hmode : Opts.indexCacheMode = .hashHeads) {c : TableCall}
    (hslot : c.slot = 0) : c.run.run w = (.error .invalid, w) := by
  have hinsert : ∀ head, (indexInsert 0 head).run w = (.error .invalid, w) := by
    intro head
    rw [indexInsert, bind_of_ok (run_getFs w), hmode]
    rfl
  have hremove : (indexRemove 0).run w = (.error .invalid, w) := by
    rw [indexRemove, bind_of_ok (run_getFs w), hmode]
    rfl
  cases c with
  | insert slot head =>
    cases hslot
    exact hinsert head
  | remove slot =>
    cases hslot
    exact hremove
  | set slot head =>
    cases hslot
    rw [TableCall.run, indexSet]
    split_ifs
    · exact hremove
    · exact hinsert head

/-- A call on a table with an empty bucket changes the map as it should. -/
theorem TableIs.call (hmode : Opts.indexCacheMode = .hashHeads) (h : TableIs w.fs g)
    (hroom : hashRoom w.fs) (c : TableCall) :
    (c.run.run w).1 = (if c.slot = 0 then .error .invalid else .ok ()) ∧
      TableIs (c.run.run w).2.fs (c.apply g) := by
  by_cases hslot : c.slot = 0
  · rw [TableCall.run_zero hmode hslot, TableCall.apply, if_pos hslot, if_pos hslot]
    exact ⟨rfl, h⟩
  · rw [TableCall.apply, if_neg hslot, if_neg hslot]
    cases c with
    | insert slot head =>
      rw [TableCall.slot] at hslot ⊢
      obtain ⟨b, hrun, ht⟩ := @TableIs.insert_run _ _ _ _ head hmode h hslot hroom
      rw [TableCall.run, hrun]
      exact ⟨rfl, ht⟩
    | remove slot =>
      rw [TableCall.slot] at hslot ⊢
      obtain ⟨b, hrun, ht⟩ := h.remove_run hmode hslot hroom
      rw [TableCall.run, hrun]
      exact ⟨rfl, ht⟩
    | set slot head =>
      rw [TableCall.slot] at hslot ⊢
      rw [TableCall.run, indexSet, TableCall.entry, headOf]
      by_cases hhead : head = 0
      · obtain ⟨b, hrun, ht⟩ := h.remove_run hmode hslot hroom
        rw [if_pos hhead, if_pos hhead, hrun]
        exact ⟨rfl, ht⟩
      · obtain ⟨b, hrun, ht⟩ := @TableIs.insert_run _ _ _ _ head hmode h hslot hroom
        rw [if_neg hhead, if_neg hhead, hrun]
        exact ⟨rfl, ht⟩

/-- `fffs_index_insert` on any table: it holds a map again. -/
theorem TableIs.insert_any (hmode : Opts.indexCacheMode = .hashHeads) (h : TableIs w.fs g)
    (hslot : slot ≠ 0) : ∃ g', TableIs ((indexInsert slot head).run w).2.fs g' := by
  rw [indexInsert, bind_of_ok (run_getFs w), hmode]
  dsimp only
  rw [if_neg hslot]
  rcases h.find hslot with ⟨p, -, hfind, -⟩ | ⟨p, -, hfind, -⟩ | ⟨hfind, -⟩
  · rw [hfind]
    exact ⟨_, h.insert hslot hfind⟩
  · rw [hfind]
    exact ⟨_, h.insert hslot hfind⟩
  · rw [hfind]
    exact ⟨g, h⟩

/-- `fffs_index_remove` on a full table changes nothing, if it ends. -/
theorem TableIs.remove_full (hmode : Opts.indexCacheMode = .hashHeads) (h : TableIs w.fs g)
    (hslot : slot ≠ 0) (hfull : ¬ hashRoom w.fs) :
    (indexRemove slot).run w = (if g slot = none then .ok () else .error .diverges, w) := by
  rw [indexRemove, bind_of_ok (run_getFs w), hmode]
  dsimp only
  rw [if_neg hslot]
  rcases h.find hslot with ⟨p, -, hfind, v, -, hg⟩ | ⟨p, hp, -, hb, -⟩ | ⟨hfind, hg, -⟩
  · rw [hfind, hg, if_neg (Option.some_ne_none v)]
    dsimp only
    cases hremove : removeBucketAt w.fs.indexHashTableSize w.fs.buckets p with
    | none => rfl
    | some table => exact absurd (h.room_of_remove hremove) hfull
  · exact absurd ⟨p, hp, hb⟩ hfull
  · rw [hfind, if_pos hg]
    rfl

theorem TableIs.remove_any (hmode : Opts.indexCacheMode = .hashHeads) (h : TableIs w.fs g)
    (hslot : slot ≠ 0) : ∃ g', TableIs ((indexRemove slot).run w).2.fs g' := by
  by_cases hroom : hashRoom w.fs
  · obtain ⟨b, hrun, ht⟩ := h.remove_run hmode hslot hroom
    rw [hrun]
    exact ⟨_, ht⟩
  · rw [h.remove_full hmode hslot hroom]
    exact ⟨g, h⟩

/-- A call on any table. -/
theorem TableIs.call_any (hmode : Opts.indexCacheMode = .hashHeads) (h : TableIs w.fs g)
    (c : TableCall) : ∃ g', TableIs (c.run.run w).2.fs g' := by
  by_cases hslot : c.slot = 0
  · rw [TableCall.run_zero hmode hslot]
    exact ⟨g, h⟩
  · cases c with
    | insert slot head => exact h.insert_any hmode hslot
    | remove slot => exact h.remove_any hmode hslot
    | set slot head =>
      rw [TableCall.run, indexSet]
      split_ifs
      · exact h.remove_any hmode hslot
      · exact h.insert_any hmode hslot

end Step

/-! ## Sequences of calls -/

section Runs

variable [Opts] {w : World} {g : Nat → Option Nat}

theorem TableIs.calls (hmode : Opts.indexCacheMode = .hashHeads) (h : TableIs w.fs g)
    (hroom : hashRoom w.fs) {cs : List TableCall} (hleaves : leavesRoom w cs) :
    TableIs (afterCalls w cs).fs (cs.foldl TableCall.apply g) := by
  induction cs generalizing w g with
  | nil => exact h
  | cons c cs ih => exact ih (h.call hmode hroom c).2 hleaves.1 hleaves.2

theorem TableIs.calls_any (hmode : Opts.indexCacheMode = .hashHeads) (h : TableIs w.fs g)
    (cs : List TableCall) : ∃ g', TableIs (afterCalls w cs).fs g' := by
  induction cs generalizing w g with
  | nil => exact ⟨g, h⟩
  | cons c cs ih =>
    obtain ⟨g', h'⟩ := h.call_any hmode c
    exact ih h'

theorem EmptyTable.table (h : EmptyTable w) : TableIs w.fs fun _ => none :=
  TableIs.empty h.size_pow h.buckets

/-- Any sequence of calls that always leaves an empty bucket.  A lookup returns the last
entry of its slot, and the enumeration every entry once. -/
theorem hash_table_is_map (h : EmptyTable w) {cs : List TableCall} (hleaves : leavesRoom w cs) :
    (∀ slot, slot ≠ 0 →
        (indexHeadForSlot slot).run (afterCalls w cs) = (.ok (lastSet cs slot), afterCalls w cs)) ∧
      ∃ rs, IterReads (afterCalls w cs) {} rs ∧ (rs.map IndexRecord.slot).Nodup ∧
        ∀ r, r ∈ rs ↔ lastSet cs r.slot = some r.head := by
  have ht := h.table.calls h.mode h.table.room_of_empty hleaves
  refine ⟨fun slot hslot => ht.lookup h.mode hslot, ?_⟩
  exact ⟨_, iterReads_table h.mode, ht.nodup_records, fun r => ht.mem_records⟩

/-- `fffs_index_remove` of the slot ends: the loop of `remove_bucket_at`, where it is
reached, ends after some number of steps. -/
def removeEnds (fs : Fs) (slot : Nat) : Prop :=
  slot ≠ 0 → ∀ p, findSlotBucket fs slot = some (p, true) →
    ∃ n table, removeBucketLoop fs.indexHashTableSize n fs.buckets p
      ((p + 1) &&& (fs.indexHashTableSize - 1)) = some table

/-- Some bucket of the table has the slot.  A bucket with the slot `0` is empty. -/
def tableHas (fs : Fs) (slot : Nat) : Prop :=
  ∃ p < fs.indexHashTableSize, (fs.buckets.getD p {}).slot = slot

/-- `fffs_index_remove` leaves the mapping of every other slot unchanged. -/
def keepsOthers (w : World) (slot : Nat) : Prop :=
  ∀ s, s ≠ slot →
    ((indexHeadForSlot s).run ((indexRemove slot).run w).2).1 = ((indexHeadForSlot s).run w).1

omit [Opts] in
theorem tableHas_zero {fs : Fs} : tableHas fs 0 ↔ hashRoom fs :=
  exists_congr fun _ => and_congr_right fun _ => bucketAt_eq_none.symm

omit [Opts] in
theorem TableIs.has_iff {fs : Fs} (h : TableIs fs g) {slot : Nat} (hslot : slot ≠ 0) :
    tableHas fs slot ↔ g slot ≠ none := by
  constructor
  · rintro ⟨p, hp, heq⟩ hnone
    rw [h.sound p hp slot _ (bucketAt_eq_some.mpr ⟨hslot, heq, rfl⟩)] at hnone
    cases hnone
  · intro hne
    obtain ⟨head, hg⟩ := Option.ne_none_iff_exists'.mp hne
    obtain ⟨p, hp, hb⟩ := h.complete slot head hg
    exact ⟨p, hp, (bucketAt_eq_some.mp hb).2.1⟩

/-- A removal that leaves the map of the other slots alone. -/
theorem TableIs.keeps_others {g' : Nat → Option Nat} {slot : Nat}
    (hmode : Opts.indexCacheMode = .hashHeads) (h : TableIs w.fs g)
    (h' : TableIs ((indexRemove slot).run w).2.fs g') (hg : ∀ s, s ≠ slot → g' s = g s) :
    keepsOthers w slot := by
  intro s hs
  by_cases h0 : s = 0
  · have hzero : ∀ v : World, ((indexHeadForSlot 0).run v).1 = .error .invalid := by
      intro v
      rw [indexHeadForSlot, bind_of_ok (run_getFs v), hmode]
      rfl
    rw [h0, hzero, hzero]
  · rw [h.lookup hmode h0, h'.lookup hmode h0, hg s hs]

theorem TableIs.remove_ends_iff (hmode : Opts.indexCacheMode = .hashHeads) (h : TableIs w.fs g)
    (slot : Nat) : removeEnds w.fs slot ∧ keepsOthers w slot ↔
      (tableHas w.fs slot → tableHas w.fs 0) := by
  by_cases hslot : slot = 0
  · subst hslot
    refine ⟨fun _ => id, fun _ => ⟨fun h0 => absurd rfl h0, ?_⟩⟩
    have hsame : ((indexRemove 0).run w).2 = w := congrArg Prod.snd
      (TableCall.run_zero hmode (show (TableCall.remove 0).slot = 0 from rfl))
    have hkept : TableIs ((indexRemove 0).run w).2.fs g := by
      rw [hsame]
      exact h
    exact h.keeps_others hmode hkept fun _ _ => rfl
  rw [tableHas_zero, h.has_iff hslot]
  constructor
  · rintro ⟨hends, -⟩ hin
    rcases h.find hslot with ⟨p, -, hfind, -⟩ | ⟨p, -, -, -, hg, -⟩ | ⟨-, hg, -⟩
    · obtain ⟨n, table, hrun⟩ := hends hslot p hfind
      exact h.room_of_remove hrun
    · exact absurd hg hin
    · exact absurd hg hin
  · intro hcond
    by_cases hroom : hashRoom w.fs
    · refine ⟨fun _ p hfind => ?_, ?_⟩
      · obtain ⟨table, hrun, -⟩ := h.remove hslot hroom hfind
        exact ⟨_, table, hrun⟩
      · obtain ⟨b, hrun, ht⟩ := h.remove_run hmode hslot hroom
        refine h.keeps_others hmode (by rw [hrun]; exact ht) fun s hs => ?_
        rw [Function.update_of_ne hs]
    · -- a full table, without the slot
      have hnone : g slot = none := not_not.mp fun hin => hroom (hcond hin)
      refine ⟨fun _ p hfind => ?_, ?_⟩
      · rcases h.find hslot with ⟨q, -, -, v, -, hg⟩ | ⟨q, -, hfq, -⟩ | ⟨hfq, -⟩
        · rw [hnone] at hg
          cases hg
        · rw [hfind] at hfq
          cases hfq
        · rw [hfind] at hfq
          cases hfq
      · have hkept : TableIs ((indexRemove slot).run w).2.fs g := by
          rw [h.remove_full hmode hslot hroom]
          exact h
        exact h.keeps_others hmode hkept fun _ _ => rfl

/-- In every table that the calls reach, a removal ends and keeps the other slots exactly
when the slot is not in the table or some bucket is empty. -/
theorem remove_ends (h : EmptyTable w) (cs : List TableCall) (slot : Nat) :
    removeEnds (afterCalls w cs).fs slot ∧ keepsOthers (afterCalls w cs) slot ↔
      (tableHas (afterCalls w cs).fs slot → tableHas (afterCalls w cs).fs 0) := by
  obtain ⟨g, ht⟩ := h.table.calls_any h.mode cs
  exact ht.remove_ends_iff h.mode slot

end Runs

/-! ## A table of four buckets -/

/-- A table of four buckets. -/
def fourBuckets : World :=
  { logChip [] [] with fs := { indexHashTableSize := 4, buckets := List.replicate 4 {} } }

theorem fourBuckets_empty : @EmptyTable defaultOpts fourBuckets :=
  @EmptyTable.mk defaultOpts fourBuckets rfl ⟨2, rfl⟩ rfl

/-- Two slots with the home `1`, the first of which is removed. -/
theorem hash_table_is_map_shift :
    ((@indexHeadForSlot defaultOpts 5).run
      (@afterCalls defaultOpts fourBuckets [.insert 1 7, .insert 5 8, .remove 1])).1 = .ok (some 8) := by
  have hleaves : @leavesRoom defaultOpts fourBuckets [.insert 1 7, .insert 5 8, .remove 1] :=
    ⟨⟨0, by decide, by decide⟩, ⟨0, by decide, by decide⟩, ⟨0, by decide, by decide⟩, trivial⟩
  exact congrArg Prod.fst ((@hash_table_is_map defaultOpts _ fourBuckets_empty _ hleaves).1 5 (by decide))

/-- Four files in the table of four buckets. -/
def fourFiles : List TableCall := [.insert 1 7, .insert 2 8, .insert 3 9, .insert 4 10]

/-- A removal from a table with an empty bucket. -/
theorem remove_ends_three :
    @removeEnds (@afterCalls defaultOpts fourBuckets fourFiles.tail).fs 2 ∧
      @keepsOthers defaultOpts (@afterCalls defaultOpts fourBuckets fourFiles.tail) 2 :=
  (@remove_ends defaultOpts _ fourBuckets_empty fourFiles.tail 2).mpr fun _ => ⟨1, by decide, by decide⟩

/-- A file is deleted from the full table. -/
theorem remove_never_ends :
    ¬ ∀ [Opts] (w : World) (cs : List TableCall) (slot : Nat), EmptyTable w →
      removeEnds (afterCalls w cs).fs slot ∧ keepsOthers (afterCalls w cs) slot := by
  intro hall
  have hends := @hall defaultOpts fourBuckets fourFiles 2 fourBuckets_empty
  obtain ⟨p, hp, h0⟩ := (@remove_ends defaultOpts _ fourBuckets_empty fourFiles 2).mp hends
    ⟨2, by decide, by decide⟩
  have hfull : ∀ p < 4, ((@afterCalls defaultOpts fourBuckets fourFiles).fs.buckets.getD p {}).slot ≠ 0 := by
    decide
  exact hfull p hp h0

end Fastffs
