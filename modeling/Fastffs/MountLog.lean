import Fastffs.LogState

/-!
# Mounting a log

A mount of a flash that holds the records `logs` ends with the map of these records in
the index cache (`replayIndex_log`).  A hash table must have room for the records at every
stage of the log (`cacheFits`).
-/

namespace Fastffs

open Prog
open Nor (Mem Byte blank)

variable [Opts]

/-! ## The cache along a log -/

/-- A hash table of `size` buckets has room for each record of the log in turn. -/
def cacheFits (size : Nat) (rs : List IndexRecord) : Prop :=
  Opts.indexCacheMode = .hashHeads → Journal.Fits size (rs.map IndexRecord.entry)

instance (size : Nat) (rs : List IndexRecord) : Decidable (cacheFits size rs) := by
  unfold cacheFits; infer_instance

omit [Opts] in
/-- A table with fewer live slots than buckets has an empty one. -/
theorem hashRoom_of_live {fs : Fs} {es : List (Nat × Nat)} (h : HashIs fs (Journal.replay 0 es))
    (hlt : (Journal.live es).card < fs.indexHashTableSize) : hashRoom fs := by
  by_contra hno
  simp only [hashRoom, not_exists, not_and] at hno
  -- otherwise every bucket has a slot of its own
  have hslot : ∀ p < fs.indexHashTableSize, ∃ slot head, bucketAt fs.buckets p = some (slot, head) := by
    intro p hp
    rcases hb : bucketAt fs.buckets p with _ | ⟨slot, head⟩
    · exact absurd hb (hno p hp)
    · exact ⟨slot, head, rfl⟩
  have hmaps : ∀ p ∈ Finset.range fs.indexHashTableSize,
      (fs.buckets.getD p {}).slot ∈ Journal.live es := by
    intro p hp
    obtain ⟨slot, head, hb⟩ := hslot p (Finset.mem_range.mp hp)
    obtain ⟨h0, hval⟩ := h.sound p (Finset.mem_range.mp hp) slot head hb
    rw [(bucketAt_eq_some.mp hb).2.1, Journal.mem_live, hval]
    exact h0
  have hinj : ∀ p ∈ Finset.range fs.indexHashTableSize, ∀ q ∈ Finset.range fs.indexHashTableSize,
      (fs.buckets.getD p {}).slot = (fs.buckets.getD q {}).slot → p = q := by
    intro p hp q hq heq
    obtain ⟨slot, head, hb⟩ := hslot p (Finset.mem_range.mp hp)
    obtain ⟨slot', head', hb'⟩ := hslot q (Finset.mem_range.mp hq)
    have hs := (bucketAt_eq_some.mp hb).2.1
    have hs' := (bucketAt_eq_some.mp hb').2.1
    rw [heq, hs'] at hs
    subst hs
    exact h.probing.unique p q _ _ _ (Finset.mem_range.mp hp) (Finset.mem_range.mp hq) hb hb'
  have hcard := Finset.card_le_card_of_injOn _ hmaps hinj
  rw [Finset.card_range] at hcard
  omega

omit [Opts] in
/-- A table with an empty bucket has fewer live slots than buckets. -/
theorem live_lt_of_hashRoom {fs : Fs} {es : List (Nat × Nat)} (h : HashIs fs (Journal.replay 0 es))
    (hroom : hashRoom fs) : (Journal.live es).card < fs.indexHashTableSize := by
  obtain ⟨p0, hp0, hempty⟩ := hroom
  have hbucket : ∀ slot, ∃ p, slot ∈ Journal.live es → p < fs.indexHashTableSize ∧
      bucketAt fs.buckets p = some (slot, Journal.replay (0 : Nat → Nat) es slot) := by
    intro slot
    by_cases hslot : slot ∈ Journal.live es
    · obtain ⟨p, hp, hb⟩ := h.complete slot (Journal.mem_live.mp hslot)
      exact ⟨p, fun _ => ⟨hp, hb⟩⟩
    · exact ⟨0, fun hin => absurd hin hslot⟩
  choose place hplace using hbucket
  -- the buckets of the live slots are different ones, and none is the empty one
  have hmaps : ∀ slot ∈ Journal.live es, place slot ∈ (Finset.range fs.indexHashTableSize).erase p0 := by
    intro slot hslot
    obtain ⟨hp, hb⟩ := hplace slot hslot
    rw [Finset.mem_erase, Finset.mem_range]
    refine ⟨fun heq => ?_, hp⟩
    rw [heq, hempty] at hb
    simp at hb
  have hinj : ∀ s ∈ Journal.live es, ∀ s' ∈ Journal.live es, place s = place s' → s = s' := by
    intro s hs s' hs' heq
    have hb := (hplace s hs).2
    rw [heq, (hplace s' hs').2] at hb
    simp only [Option.some.injEq, Prod.mk.injEq] at hb
    exact hb.1.symm
  have hcard := Finset.card_le_card_of_injOn _ hmaps hinj
  rw [Finset.card_erase_of_mem (Finset.mem_range.mpr hp0), Finset.card_range] at hcard
  omega

/-- The cache of a mount is empty. -/
theorem mountedFs_cache {size : Nat} {o : MountOptions} (seq : IndexSequence)
    (hvalid : indexCacheConfigValid o.indexHashTableSize = true) :
    CacheIs (mountedFs size o seq) (fun _ => 0) := by
  unfold CacheIs
  unfold indexCacheConfigValid at hvalid
  cases hmode : Opts.indexCacheMode with
  | none => trivial
  | fullSlotHeads => rfl
  | hashHeads =>
    rw [hmode] at hvalid
    simp only [Bool.and_eq_true, decide_eq_true_eq, isPowerOfTwo, bne_iff_ne, beq_iff_eq] at hvalid
    obtain ⟨⟨hpos, hand⟩, -⟩ := hvalid
    have hnone : bucketAt (mountedFs size o seq).buckets = fun _ => none := by
      funext p
      rw [bucketAt_eq_none]
      change ((List.replicate o.indexHashTableSize ({} : IndexBucket)).getD p {}).slot = 0
      rw [List.getD_eq_getElem?_getD, List.getElem?_replicate]
      split <;> rfl
    exact {
      size_pow := (Nat.and_sub_one_eq_zero_iff_isPowerOfTwo hpos).mp hand
      length := List.length_replicate
      probing := by
        rw [hnone]
        exact Probe.Probing.empty fun k => Nat.mod_lt _ (Nat.pos_of_ne_zero hpos)
      sound := by simp [hnone]
      complete := fun slot h => absurd rfl h }

/-- Entering a record of the log. -/
theorem applyRecord_run {v : World} {r : IndexRecord} {es : List (Nat × Nat)}
    (hc : CacheIs v.fs (Journal.replay 0 es)) (hslot : r.clobbered = true ∨ r.slot ≠ 0)
    (h0 : Journal.replay (0 : Nat → Nat) es 0 = 0)
    (hroom : Opts.indexCacheMode = .hashHeads → Journal.Takes v.fs.indexHashTableSize es r.entry) :
    ∃ b heads, (applyRecord r).run v = (.ok (), v.withCache b heads) ∧
      CacheIs (v.withCache b heads).fs (Journal.replay 0 (es ++ [r.entry])) := by
  have happend : Journal.replay (0 : Nat → Nat) (es ++ [r.entry]) =
      Function.update (Journal.replay 0 es) r.slot r.head := Journal.replay_append _ _ _
  rw [happend, applyRecord]
  by_cases hclob : r.clobbered = true
  · rw [if_pos hclob]
    rw [IndexRecord.clobbered_iff] at hclob
    refine ⟨v.fs.buckets, v.fs.indexHeads, rfl, ?_⟩
    rw [hclob.1, hclob.2, Function.update_eq_self_iff.mpr h0.symm]
    exact hc
  · rw [if_neg hclob]
    refine indexSet_run hc (hslot.resolve_left hclob) fun hmode => (hroom hmode).imp id fun hlt => ?_
    have hc' := hc
    unfold CacheIs at hc'
    rw [hmode] at hc'
    exact hashRoom_of_live hc' hlt

omit [Opts] in
/-- No record gives a head to slot `0`. -/
theorem logMap_zero {rs : List IndexRecord} (hslot : ∀ r ∈ rs, r.clobbered = true ∨ r.slot ≠ 0) :
    logMap rs 0 = 0 := by
  by_contra hne
  obtain ⟨e, he, hkey, hval⟩ := Journal.replay_of_mem (Journal.mem_of_replay_ne hne)
  obtain ⟨r, hr, rfl⟩ := List.mem_map.mp he
  refine hne ((hval _).trans ?_)
  have hclob := (hslot r hr).resolve_right (not_not.mpr hkey)
  exact (IndexRecord.clobbered_iff.mp hclob).2

/-- Entering the records of a log. -/
theorem applyRecords_run {v : World} {rs0 rs : List IndexRecord}
    (hc : CacheIs v.fs (logMap rs0)) (hslot : ∀ r ∈ rs0 ++ rs, r.clobbered = true ∨ r.slot ≠ 0)
    (hfits : cacheFits v.fs.indexHashTableSize (rs0 ++ rs)) :
    ∃ b heads, (applyRecords rs).run v = (.ok (), v.withCache b heads) ∧
      CacheIs (v.withCache b heads).fs (logMap (rs0 ++ rs)) := by
  induction rs generalizing v rs0 with
  | nil =>
    refine ⟨v.fs.buckets, v.fs.indexHeads, rfl, ?_⟩
    rw [List.append_nil]
    exact hc
  | cons r rs ih =>
    have hassoc : rs0 ++ r :: rs = rs0 ++ [r] ++ rs := by simp
    have h0 := logMap_zero fun r' h => hslot r' (List.mem_append_left _ h)
    have hmap : logMap (rs0 ++ [r]) = Journal.replay 0 (rs0.map IndexRecord.entry ++ [r.entry]) := by
      rw [logMap, List.map_append]
      rfl
    obtain ⟨b, heads, hrun, hc1⟩ := applyRecord_run hc
      (hslot r (List.mem_append_right _ List.mem_cons_self)) h0 fun hmode =>
        hfits hmode _ _ (by rw [hassoc, List.map_append, List.map_append]; exact List.prefix_append _ _)
    rw [hassoc] at hslot hfits ⊢
    obtain ⟨b', heads', hrest, hc2⟩ := @ih (v.withCache b heads) _ (hmap ▸ hc1) hslot hfits
    refine ⟨b', heads', ?_, hc2⟩
    rw [applyRecords, bind_of_ok hrun, hrest]
    rfl

/-! ## Mounting -/

omit [Opts] in
/-- The slots of clean records. -/
theorem IndexRecord.clean_slot {fs : Fs} {r : IndexRecord} (h : r.clean fs = true) :
    r.clobbered = true ∨ r.slot ≠ 0 := by
  rw [clean, Bool.or_eq_true, Bool.not_eq_true', ← Bool.not_eq_true, malformed_iff] at h
  refine h.imp id fun hno h0 => hno (.inl (.inl h0))

/-- Records that were entered into the cache without an error fitted it. -/
theorem applyRecords_fits {v v' : World} {rs0 rs : List IndexRecord} (hc : CacheIs v.fs (logMap rs0))
    (hslot : ∀ r ∈ rs0 ++ rs, r.clobbered = true ∨ r.slot ≠ 0)
    (hfits : cacheFits v.fs.indexHashTableSize rs0) (hrun : (applyRecords rs).run v = (.ok (), v')) :
    cacheFits v.fs.indexHashTableSize (rs0 ++ rs) := by
  induction rs generalizing v rs0 with
  | nil =>
    rw [List.append_nil]
    exact hfits
  | cons r rs ih =>
    have hassoc : rs0 ++ r :: rs = rs0 ++ [r] ++ rs := by simp
    have h0 := logMap_zero fun r' h => hslot r' (List.mem_append_left _ h)
    have hr := hslot r (List.mem_append_right _ List.mem_cons_self)
    rw [applyRecords] at hrun
    obtain ⟨u, v1, hfirst, hrest⟩ := bind_ok hrun
    have htakes : Opts.indexCacheMode = .hashHeads →
        Journal.Takes v.fs.indexHashTableSize (rs0.map IndexRecord.entry) r.entry := by
      intro hmode
      by_cases hclob : r.clobbered = true
      · rw [IndexRecord.clobbered_iff] at hclob
        refine .inl ?_
        change logMap rs0 r.slot = 0 ↔ r.head = 0
        rw [hclob.1, hclob.2]
        exact ⟨fun _ => rfl, fun _ => h0⟩
      · rw [applyRecord, if_neg hclob] at hfirst
        refine (cacheRoom_of_set hc (hr.resolve_left hclob) hfirst hmode).imp id fun hroom => ?_
        unfold CacheIs at hc
        rw [hmode] at hc
        exact live_lt_of_hashRoom hc hroom
    obtain ⟨b, heads, hrun1, hc1⟩ := applyRecord_run hc hr h0 htakes
    obtain rfl : v1 = v.withCache b heads := by
      rw [hrun1] at hfirst
      exact (congrArg Prod.snd hfirst).symm
    have hmap : logMap (rs0 ++ [r]) = Journal.replay 0 (rs0.map IndexRecord.entry ++ [r.entry]) := by
      rw [logMap, List.map_append]
      rfl
    rw [hassoc] at hslot ⊢
    refine @ih (v.withCache b heads) _ (hmap ▸ hc1) hslot (fun hmode => ?_) hrest
    rw [List.map_append, List.map_singleton]
    exact Journal.fits_append_singleton.mpr ⟨hfits hmode, htakes hmode⟩

omit [Opts] in
/-- The scan of the log `logs`. -/
theorem LogOn.scanLog_eq {v : World} {next : Nat} {logs : List (List IndexRecord)}
    (hlog : LogOn (v.withNext next) logs) (hv : LogPlaced v) (hlive : tailLive v (logs.getLast?.getD [])) :
    let sc := scanLog v v.fs.indexSequenceCount v.fs.oldestIndexSector
    sc.records = logs.flatten ∧ sc.stop ≠ .bad ∧ sc.offset = next := by
  intro sc
  obtain ⟨n, hn⟩ : ∃ n, v.fs.indexSequenceCount = n + 1 :=
    ⟨v.fs.indexSequenceCount - 1, by have := hv.count_pos; omega⟩
  have hlast := hv.last
  rw [hn, Nat.add_sub_cancel] at hlast
  have hsectors : 0 < v.fs.indexSectors := Nat.lt_of_le_of_lt (Nat.zero_le _) hv.oldest_lt
  have hlive' : tailLive (v.withNext next) (logs.getLast?.getD []) := by
    intro r hr
    rw [rootIsLive_congr (SameData.withNext hv.plan next)]
    exact hlive r hr
  have hzero : logicalIndexSector v.fs 0 = v.fs.oldestIndexSector := logicalIndexSector_zero hv.oldest_lt
  have hcount : logs.length = v.fs.indexSequenceCount := hlog.count
  have hlast' : activeLast (v.withNext next).fs n (logicalIndexSector (v.withNext next).fs 0) := by
    have heq : logicalIndexSector (v.withNext next).fs 0 = v.fs.oldestIndexSector := hzero
    rw [heq]
    exact @activeLast_congr v.fs _ _ _ rfl rfl hlast
  obtain ⟨hrecords, hstop, hoffset⟩ := hlog.scanLog_from hv.size hv.aligned hsectors hlive'
    (show 0 + n + 1 = logs.length by omega)
    hlast'
  change (scanLog (v.withNext next) (n + 1) (logicalIndexSector v.fs 0)).records = _ at hrecords
  change (scanLog (v.withNext next) (n + 1) (logicalIndexSector v.fs 0)).stop ≠ _ at hstop
  change (scanLog (v.withNext next) (n + 1) (logicalIndexSector v.fs 0)).offset = next at hoffset
  rw [scanLog_congr (SameData.withNext hv.plan next) rfl rfl, hzero, ← hn] at hrecords hstop hoffset
  rw [List.drop_zero] at hrecords
  exact ⟨hrecords, hstop, hoffset⟩

omit [Opts] in
theorem LogOn.clean_slots {v : World} {logs : List (List IndexRecord)} (hlog : LogOn v logs) :
    ∀ r ∈ logs.flatten, r.clobbered = true ∨ r.slot ≠ 0 := by
  intro r hr
  obtain ⟨rs, hrs, hr⟩ := List.mem_flatten.mp hr
  exact IndexRecord.clean_slot (hlog.clean rs hrs r hr)

/-- The replay of the log `logs`. -/
theorem replayIndex_log {v : World} {next : Nat} {logs : List (List IndexRecord)} (hv : LogPlaced v)
    (hc : CacheIs v.fs (fun _ => 0)) (hlog : LogOn (v.withNext next) logs)
    (hlive : tailLive v (logs.getLast?.getD []))
    (hfits : cacheFits v.fs.indexHashTableSize logs.flatten) :
    ∃ b heads cursor serial,
      replayIndex.run v = (.ok (), ((v.withCache b heads).withNext next).withHint cursor serial) ∧
      CacheIs (v.withCache b heads).fs (logMap logs.flatten) := by
  obtain ⟨hrecords, hstop, hoffset⟩ := hlog.scanLog_eq hv hlive
  obtain ⟨b, heads, hrun, hc'⟩ := @applyRecords_run _ v [] _ hc hlog.clean_slots hfits
  have hout := replayIndex_outcome hv
  rw [ReplayOutcome, hrecords, hrun] at hout
  dsimp only at hout
  rw [if_pos hstop, hoffset] at hout
  obtain ⟨cursor, serial, hhint⟩ := @allocatorHint_run ((v.withCache b heads).withNext next) hv.plan
    (lastHead 0 logs.flatten)
  exact ⟨b, heads, cursor, serial, hout.trans hhint, hc'⟩

/-- A replay that succeeds has a cache that its records fit. -/
theorem replayIndex_fits {v : World} {rs : List IndexRecord} (hv : LogPlaced v)
    (hc : CacheIs v.fs (fun _ => 0))
    (hscan : (scanLog v v.fs.indexSequenceCount v.fs.oldestIndexSector).records = rs)
    (hslot : ∀ r ∈ rs, r.clobbered = true ∨ r.slot ≠ 0) (hrun : (replayIndex.run v).1 = .ok ()) :
    cacheFits v.fs.indexHashTableSize rs := by
  have hout := replayIndex_outcome hv
  rw [ReplayOutcome, hscan] at hout
  rcases happly : (applyRecords rs).run v with ⟨e | ⟨⟩, v1⟩
  · rw [happly] at hout
    obtain ⟨x, hx⟩ := hout
    rw [hx] at hrun
    cases hrun
  · exact @applyRecords_fits _ v v1 [] rs hc hslot (fun _ => Journal.fits_nil _) happly

/-- A strict replay that succeeds has found no bad record. -/
theorem replayIndex_strict {v : World} (hv : LogPlaced v) (hstrict : v.fs.strict = true)
    (hrun : (replayIndex.run v).1 = .ok ()) :
    (scanLog v v.fs.indexSequenceCount v.fs.oldestIndexSector).stop ≠ .bad := by
  intro hbad
  have hout := replayIndex_outcome hv
  rw [ReplayOutcome] at hout
  split at hout
  · obtain ⟨x, hx⟩ := hout
    rw [hx] at hrun
    cases hrun
  · rw [if_neg (not_not.mpr hbad), if_neg (by simp [hstrict])] at hout
    obtain ⟨x, hx⟩ := hout
    rw [hx] at hrun
    cases hrun

end Fastffs
