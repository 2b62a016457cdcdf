import Fastffs.IndexWindow
import Fastffs.KeptRecords
import Fastffs.RotationFaults

/-!
# The index backends agree

The log of the index stands for a map from slots to heads.  A cache holds that map,
and a build without a cache reads it off the flash.  The lookup of a slot, the
resolution of a name and the enumeration of the index are shown to depend on the map
alone, so that they are the same whichever backend a build has.
-/

namespace Fastffs

open Prog
open Nor (Mem Byte blank)

/-! ## The probe window of a name -/

theorem normalizeSlotBase_range (slot : Nat) (h : slot < 65536) :
    1 ≤ normalizeSlotBase slot ∧ normalizeSlotBase slot < uint16Max := by
  rw [normalizeSlotBase, uint16Max]
  split_ifs <;> omega

theorem nextSlot_ne_zero (slot : Nat) : nextSlot slot ≠ 0 := by
  rw [nextSlot]
  split_ifs with h
  · exact Nat.one_ne_zero
  · exact fun h0 => h (.inl h0)

/-- A probe goes round the slots `1` to `0xfffe`. -/
theorem candidateSlot_eq {base : Nat} (h1 : 1 ≤ base) (h2 : base < uint16Max) (d : Nat) :
    candidateSlot base d = (base - 1 + d) % 65534 + 1 := by
  rw [uint16Max] at h2
  induction d with
  | zero =>
    rw [candidateSlot, Nat.add_zero, Nat.mod_eq_of_lt (by omega)]
    omega
  | succ d ih =>
    have hlt : (base - 1 + d) % 65534 < 65534 := Nat.mod_lt _ (by decide)
    have hu : u16 ((base - 1 + d) % 65534 + 1 + 1) = (base - 1 + d) % 65534 + 2 :=
      u16_of_lt (by omega)
    rw [candidateSlot, ih, nextSlot, hu, uint16Max]
    by_cases hlast : (base - 1 + d) % 65534 = 65533
    · rw [if_pos (.inr (by omega))]
      omega
    · rw [if_neg (by omega)]
      omega

theorem candidateSlot_ne_zero {base : Nat} (h : base ≠ 0) (d : Nat) : candidateSlot base d ≠ 0 := by
  cases d with
  | zero => exact h
  | succ d => exact nextSlot_ne_zero _

/-- The slots of a probe window are distinct. -/
theorem candidateSlot_inj {base d d' : Nat} (h1 : 1 ≤ base) (h2 : base < uint16Max)
    (hd : d ≤ maxProbeDistance) (hd' : d' ≤ maxProbeDistance)
    (heq : candidateSlot base d = candidateSlot base d') : d = d' := by
  rw [candidateSlot_eq h1 h2, candidateSlot_eq h1 h2] at heq
  rw [uint16Max] at h2
  rw [maxProbeDistance] at hd hd'
  omega

/-- `candidate_offset` finds the distance of a slot of the window. -/
theorem candidateOffset_from {base slot n d : Nat} :
    (∃ e, candidateOffset slot n d (candidateSlot base d) = some e ∧ d ≤ e ∧ e < d + n ∧
        candidateSlot base e = slot) ∨
      (candidateOffset slot n d (candidateSlot base d) = none ∧
        ∀ e, d ≤ e → e < d + n → candidateSlot base e ≠ slot) := by
  induction n generalizing d with
  | zero => exact .inr ⟨rfl, fun e h1 h2 => by omega⟩
  | succ n ih =>
    rw [candidateOffset]
    by_cases heq : candidateSlot base d = slot
    · exact .inl ⟨d, if_pos heq, le_rfl, by omega, heq⟩
    · rw [if_neg heq]
      change (∃ e, candidateOffset slot n (d + 1) (candidateSlot base (d + 1)) = some e ∧ _) ∨
        candidateOffset slot n (d + 1) (candidateSlot base (d + 1)) = none ∧ _
      rcases ih (d := d + 1) with ⟨e, he, h1, h2, h3⟩ | ⟨hnone, hall⟩
      · exact .inl ⟨e, he, by omega, by omega, h3⟩
      · refine .inr ⟨hnone, fun e h1 h2 => ?_⟩
        rcases Nat.eq_or_lt_of_le h1 with rfl | hlt
        · exact heq
        · exact hall e hlt (by omega)

theorem candidateOffset_eq {base slot : Nat} :
    (∃ d, candidateOffset slot (maxProbeDistance + 1) 0 base = some d ∧ d ≤ maxProbeDistance ∧
        candidateSlot base d = slot) ∨
      (candidateOffset slot (maxProbeDistance + 1) 0 base = none ∧
        ∀ d ≤ maxProbeDistance, candidateSlot base d ≠ slot) := by
  rcases @candidateOffset_from base slot (maxProbeDistance + 1) 0 with
    ⟨d, hd, -, hlt, heq⟩ | ⟨hnone, hall⟩
  · exact .inl ⟨d, hd, by omega, heq⟩
  · exact .inr ⟨hnone, fun d hd => hall d (Nat.zero_le d) (by omega)⟩

/-- The slots a name may take, from distance `d` on. -/
def probeWindow (base d n : Nat) : List Nat := (List.range' d n).map (candidateSlot base)

theorem probeWindow_succ (base d n : Nat) :
    probeWindow base d (n + 1) = candidateSlot base d :: probeWindow base (d + 1) n := by
  rw [probeWindow, List.range'_succ, List.map_cons]
  rfl

theorem mem_probeWindow {base n slot : Nat} :
    slot ∈ probeWindow base 0 n ↔ ∃ d < n, candidateSlot base d = slot := by
  rw [probeWindow, List.mem_map]
  constructor
  · rintro ⟨d, hd, heq⟩
    exact ⟨d, by rw [List.mem_range'_1] at hd; omega, heq⟩
  · rintro ⟨d, hd, heq⟩
    exact ⟨d, by rw [List.mem_range'_1]; omega, heq⟩

/-! ## Resolving a name -/

/-- The live slots of the map `f` have roots that can be read, and their names are
distinct. -/
structure LiveRoots (w : World) (useCache : Bool) (f : Nat → Nat) (root : Nat → RootMd) : Prop where
  readable : ∀ slot, f slot ≠ 0 →
    (readFileRootMdPrefix (f slot) slot useCache).run w = (.ok (root slot), w)
  distinct : ∀ s s', f s ≠ 0 → f s' ≠ 0 → cstr (root s).name = cstr (root s').name → s = s'

/-- The live slots of the map `f` have roots that can be read. -/
def RootsReadable (w : World) (useCache : Bool) (f : Nat → Nat) (root : Nat → RootMd) : Prop :=
  ∀ slot, f slot ≠ 0 → (readFileRootMdPrefix (f slot) slot useCache).run w = (.ok (root slot), w)

/-- The slot is live and has the name. -/
def slotNamed (f : Nat → Nat) (root : Nat → RootMd) (name : List Byte) (slot : Nat) : Bool :=
  f slot != 0 && cstr (root slot).name == cstr name

/-- The slot can be given to a new file. -/
def slotOpen (w : World) (f : Nat → Nat) (slot : Nat) : Bool := f slot == 0 && !slotIsPinned w slot

/-- What a probe ends with, when `free` is the first free slot it has met. -/
def freeOutcome : Option Nat → Except Status Resolved
  | some slot => .ok ⟨slot, none⟩
  | none => .error .noSpace

/-- What resolving a name in a window means: the slot that has the name, or the first
slot that is free and not pinned. -/
def resolveOutcome (w : World) (f : Nat → Nat) (root : Nat → RootMd) (name : List Byte)
    (window : List Nat) (firstFree : Option Nat) : Except Status Resolved :=
  match window.find? (slotNamed f root name) with
  | some slot => .ok ⟨slot, some (f slot, root slot)⟩
  | none => freeOutcome (firstFree.or (window.find? (slotOpen w f)))

section Resolve

variable {w : World} {f : Nat → Nat} {root : Nat → RootMd} {name : List Byte} {useCache : Bool}
  {base : Nat}

theorem slotNamed_iff {slot : Nat} :
    slotNamed f root name slot = true ↔ f slot ≠ 0 ∧ cstr (root slot).name = cstr name := by
  rw [slotNamed, Bool.and_eq_true, bne_iff_ne, beq_iff_eq]

/-- The probe of a build with a cache. -/
theorem resolveProbe_run [Opts]
    (hhead : ∀ slot, slot ≠ 0 → (indexHeadForSlot slot).run w = (.ok (headOf (f slot)), w))
    (hread : RootsReadable w useCache f root) (hbase : base ≠ 0) {n d : Nat} {firstFree : Option Nat} :
    (resolveProbe name useCache n (candidateSlot base d) firstFree).run w =
      (resolveOutcome w f root name (probeWindow base d n) firstFree, w) := by
  induction n generalizing d firstFree with
  | zero =>
    cases firstFree with
    | none => rfl
    | some slot => rfl
  | succ n ih =>
    rw [resolveProbe, bind_of_ok (hhead _ (candidateSlot_ne_zero hbase d)), probeWindow_succ,
      resolveOutcome, List.find?_cons, List.find?_cons]
    have hnext : nextSlot (candidateSlot base d) = candidateSlot base (d + 1) := rfl
    by_cases h0 : f (candidateSlot base d) = 0
    · have hnamed : slotNamed f root name (candidateSlot base d) = false := by
        rw [slotNamed, h0]
        rfl
      rw [headOf, if_pos h0, hnamed]
      dsimp only
      rw [bind_of_ok (run_get w), hnext, ih, resolveOutcome]
      cases hfind : (probeWindow base (d + 1) n).find? (slotNamed f root name) with
      | some slot => rfl
      | none =>
        dsimp only
        cases firstFree with
        | some slot => rfl
        | none =>
          rw [slotOpen, h0]
          cases hpin : slotIsPinned w (candidateSlot base d) <;> rfl
    · have hopen : slotOpen w f (candidateSlot base d) = false := by
        rw [slotOpen, beq_false_of_ne h0, Bool.false_and]
      rw [headOf, if_neg h0, hopen]
      dsimp only
      rw [bind_of_ok (hread _ h0)]
      by_cases hname : cstr (root (candidateSlot base d)).name = cstr name
      · rw [if_pos hname, slotNamed_iff.mpr ⟨h0, hname⟩]
        rfl
      · have hnamed : slotNamed f root name (candidateSlot base d) = false :=
          Bool.eq_false_of_not_eq_true fun h => hname (slotNamed_iff.mp h).2
        rw [if_neg hname, hnamed, hnext, ih]
        rfl

/-- `resolve_reached_slot`. -/
theorem resolveReachedSlot_run {occupied : List Nat} {n d : Nat}
    (hocc : ∀ e, d ≤ e → e < d + n → (e ∈ occupied ↔ f (candidateSlot base e) ≠ 0)) :
    (resolveReachedSlot base occupied n d).run w =
      (match (probeWindow base d n).find? (slotOpen w f) with
        | some slot => .ok slot
        | none => .error .noSpace, w) := by
  induction n generalizing d with
  | zero => rfl
  | succ n ih =>
    rw [resolveReachedSlot, bind_of_ok (run_get w), probeWindow_succ, List.find?_cons]
    dsimp only
    by_cases hopen : slotOpen w f (candidateSlot base d) = true
    · rw [slotOpen, Bool.and_eq_true, beq_iff_eq, Bool.not_eq_true'] at hopen
      have hfree : d ∉ occupied := fun h => (hocc d le_rfl (by omega)).mp h hopen.1
      rw [if_pos ⟨hfree, hopen.2⟩, slotOpen, hopen.1, hopen.2]
      rfl
    · have hkeep : ¬ (d ∉ occupied ∧ slotIsPinned w (candidateSlot base d) = false) := by
        rintro ⟨hfree, hpin⟩
        refine hopen ?_
        rw [hocc d le_rfl (by omega), not_ne_iff] at hfree
        rw [slotOpen, hfree, hpin]
        rfl
      rw [if_neg hkeep, Bool.eq_false_of_not_eq_true hopen,
        ih fun e h1 h2 => hocc e (by omega) (by omega)]

/-! ## Resolving a name in the log -/

theorem latest_suffix {rs seen : List IndexRecord} {slot head : Nat} (hsuf : seen <:+ rs)
    (h : Journal.latest slot (entries seen) = some head) : logMap rs slot = head := by
  obtain ⟨front, rfl⟩ := hsuf
  change Journal.replay 0 (entries (front ++ seen)) slot = head
  rw [Journal.replay_eq_latest, entries_append, Journal.latest_append, h]
  rfl

theorem logMap_eq_latest (rs : List IndexRecord) (slot : Nat) :
    logMap rs slot = (Journal.latest slot (entries rs)).getD 0 :=
  Journal.replay_eq_latest _ _ _

theorem latest_cons (slot : Nat) (r : IndexRecord) (rs : List IndexRecord) :
    Journal.latest slot (entries (r :: rs)) =
      (Journal.latest slot (entries rs)).or (if r.slot = slot then some r.head else none) := rfl

/-- What the search of a build without a cache knows after it has gone through the records
`seen`, the newest of the log: the newest head of each slot of the window, and that none
of these slots has the name. -/
structure Probed (root : Nat → RootMd) (name : List Byte) (base : Nat) (seen : List IndexRecord)
    (sets : ProbeSets) : Prop where
  occupied : ∀ d ≤ maxProbeDistance, d ∈ sets.occupied ↔
    ∃ head, Journal.latest (candidateSlot base d) (entries seen) = some head ∧ head ≠ 0
  deleted : ∀ d ≤ maxProbeDistance, d ∈ sets.deleted ↔
    Journal.latest (candidateSlot base d) (entries seen) = some 0
  other : ∀ d ≤ maxProbeDistance, d ∈ sets.occupied →
    cstr (root (candidateSlot base d)).name ≠ cstr name

namespace Probed

variable {seen : List IndexRecord} {sets : ProbeSets} {r : IndexRecord} {d : Nat}

theorem start : Probed root name base [] {} :=
  ⟨fun _ _ => by simp [entries, Journal.latest], fun _ _ => by simp [entries, Journal.latest],
    fun _ _ h => by simp at h⟩

/-- A distance is in one of the sets when a record of its slot has been met. -/
theorem met_iff (h : Probed root name base seen sets) (hd : d ≤ maxProbeDistance) :
    d ∈ sets.occupied ∨ d ∈ sets.deleted ↔
      Journal.latest (candidateSlot base d) (entries seen) ≠ none := by
  rw [h.occupied d hd, h.deleted d hd]
  cases hl : Journal.latest (candidateSlot base d) (entries seen) with
  | none => simp
  | some head => simp [em']

/-- A record that changes the newest head of no slot of the window. -/
theorem pass (h : Probed root name base seen sets)
    (hold : ∀ d ≤ maxProbeDistance, candidateSlot base d = r.slot →
      Journal.latest r.slot (entries seen) ≠ none) :
    Probed root name base (r :: seen) sets := by
  have hsame : ∀ d ≤ maxProbeDistance, Journal.latest (candidateSlot base d) (entries (r :: seen)) =
      Journal.latest (candidateSlot base d) (entries seen) := by
    intro d hd
    rw [latest_cons]
    by_cases heq : r.slot = candidateSlot base d
    · obtain ⟨head, hhead⟩ := Option.ne_none_iff_exists'.mp (hold d hd heq.symm)
      rw [← heq, hhead]
      rfl
    · rw [if_neg heq, Option.or_none]
  exact ⟨fun d hd => by rw [hsame d hd]; exact h.occupied d hd,
    fun d hd => by rw [hsame d hd]; exact h.deleted d hd, h.other⟩

/-- The newest record of a slot of the window. -/
theorem latest_new (h1 : 1 ≤ base) (h2 : base < uint16Max) (hd : d ≤ maxProbeDistance)
    (hslot : candidateSlot base d = r.slot) (hnew : Journal.latest r.slot (entries seen) = none)
    {e : Nat} (he : e ≤ maxProbeDistance) :
    Journal.latest (candidateSlot base e) (entries (r :: seen)) =
      if e = d then some r.head else Journal.latest (candidateSlot base e) (entries seen) := by
  rw [latest_cons]
  by_cases heq : e = d
  · rw [if_pos heq, heq, hslot, hnew, if_pos rfl, Option.none_or]
  · have hne : r.slot ≠ candidateSlot base e := fun hs =>
      heq (candidateSlot_inj h1 h2 he hd (hs.symm.trans hslot.symm))
    rw [if_neg heq, if_neg hne, Option.or_none]

/-- The newest record of a slot of the window is a delete. -/
theorem delete (h : Probed root name base seen sets) (h1 : 1 ≤ base) (h2 : base < uint16Max)
    (hd : d ≤ maxProbeDistance) (hslot : candidateSlot base d = r.slot)
    (hnew : Journal.latest r.slot (entries seen) = none) (hhead : r.head = 0) :
    Probed root name base (r :: seen) { sets with deleted := d :: sets.deleted } := by
  refine ⟨fun e he => ?_, fun e he => ?_, h.other⟩
  · rw [latest_new h1 h2 hd hslot hnew he]
    dsimp only
    rw [h.occupied e he]
    by_cases heq : e = d
    · rw [if_pos heq, heq, hslot, hnew, hhead]
      simp
    · rw [if_neg heq]
  · rw [latest_new h1 h2 hd hslot hnew he, List.mem_cons, h.deleted e he]
    by_cases heq : e = d
    · simp [heq, hhead]
    · rw [if_neg heq, or_iff_right heq]

/-- The newest record of a slot of the window gives it a head, and another name. -/
theorem occupy (h : Probed root name base seen sets) (h1 : 1 ≤ base) (h2 : base < uint16Max)
    (hd : d ≤ maxProbeDistance) (hslot : candidateSlot base d = r.slot)
    (hnew : Journal.latest r.slot (entries seen) = none) (hhead : r.head ≠ 0)
    (hname : cstr (root r.slot).name ≠ cstr name) :
    Probed root name base (r :: seen) { sets with occupied := d :: sets.occupied } := by
  refine ⟨fun e he => ?_, fun e he => ?_, fun e he hmem => ?_⟩
  · rw [latest_new h1 h2 hd hslot hnew he, List.mem_cons, h.occupied e he]
    by_cases heq : e = d
    · simp [heq, hhead]
    · rw [if_neg heq, or_iff_right heq]
  · rw [latest_new h1 h2 hd hslot hnew he]
    dsimp only
    rw [h.deleted e he]
    by_cases heq : e = d
    · rw [if_pos heq, heq, hslot, hnew]
      simp [hhead]
    · rw [if_neg heq]
  · rcases List.mem_cons.mp hmem with rfl | hmem
    · rwa [hslot]
    · exact h.other e he hmem

end Probed

variable {logs : List (List IndexRecord)}

/-- A record of the log that was not overwritten has a slot, and its head is `0` or a data
sector. -/
theorem LogOn.appended (h : LogOn w logs) {rs : List IndexRecord} (hrs : rs ∈ logs) {r : IndexRecord}
    (hr : r ∈ rs) (hclob : r.clobbered = false) :
    r.slot ≠ 0 ∧ ¬ (r.head ≠ 0 ∧ (r.head < w.fs.indexSectors ∨ w.fs.sectorCount ≤ r.head)) := by
  have hclean := h.clean rs hrs r hr
  rw [IndexRecord.clean, hclob, Bool.false_or, Bool.not_eq_true', ← Bool.not_eq_true,
    IndexRecord.malformed_iff, not_or] at hclean
  exact ⟨fun h0 => hclean.1 (.inl h0), hclean.2⟩

/-- The record loop of a build without a cache, from place `j` of sector `k` back.  It goes
on with what the records say, or it stops at the slot that has the name. -/
theorem resolveInSector_run (h : LogOn w logs) (hp : LogPlaced w)
    (hread : RootsReadable w useCache (logMap logs.flatten) root) (h1 : 1 ≤ base) (h2 : base < uint16Max)
    {k j fuel : Nat} (hk : k < logs.length) (hj : j ≤ recordPlaces w.fs) (hfuel : j ≤ fuel)
    {seen : List IndexRecord} {sets : ProbeSets}
    (hsuf : (logs.getD k []).take j ++ seen <:+ logs.flatten)
    (hprobed : Probed root name base seen sets) :
    (∃ sets', (resolveInSector name useCache base (logBegin w.fs k) fuel (logBegin w.fs k + 4 * j)
          sets).run w = (.ok (sets', none), w) ∧
        Probed root name base ((logs.getD k []).take j ++ seen) sets') ∨
      ∃ sets' slot, slot ∈ probeWindow base 0 (maxProbeDistance + 1) ∧
        slotNamed (logMap logs.flatten) root name slot = true ∧
        (resolveInSector name useCache base (logBegin w.fs k) fuel (logBegin w.fs k + 4 * j) sets).run w =
          (.ok (sets', some ⟨slot, some (logMap logs.flatten slot, root slot)⟩), w) := by
  induction j generalizing fuel seen sets with
  | zero =>
    left
    refine ⟨sets, ?_, hprobed⟩
    cases fuel with
    | zero => rfl
    | succ fuel =>
      rw [resolveInSector, if_neg (by omega)]
      rfl
  | succ j ih =>
    obtain ⟨fuel, rfl⟩ : ∃ n, fuel = n + 1 := ⟨fuel - 1, by omega⟩
    obtain ⟨r, hrun, hr⟩ := h.readIndexRecord_at hp hk (show j < recordPlaces w.fs by omega)
    have hoff : logBegin w.fs k + 4 * (j + 1) - 4 = logBegin w.fs k + 4 * j := by omega
    rw [resolveInSector, if_pos (by omega)]
    dsimp only
    rw [hoff, bind_of_ok (run_getFs w), bind_of_ok hrun]
    split at hr
    · next hlt =>
      obtain ⟨hreq, herased⟩ := hr
      have hmem : r ∈ logs.getD k [] := by
        rw [hreq, List.getD_eq_getElem _ _ hlt]
        exact List.getElem_mem hlt
      have htake : (logs.getD k []).take (j + 1) = (logs.getD k []).take j ++ [r] := by
        rw [hreq, List.getD_eq_getElem _ _ hlt, List.take_append_getElem hlt]
      rw [htake, List.append_assoc, List.singleton_append] at hsuf ⊢
      have hnext := fun sets => @ih fuel (by omega) (by omega) (r :: seen) sets hsuf
      rw [herased]
      by_cases hclob : r.clobbered = true
      · have hslot := (IndexRecord.clobbered_iff.mp hclob).1
        rw [if_pos (.inr hclob)]
        exact hnext sets (hprobed.pass fun d _ heq =>
          absurd (heq.trans hslot) (candidateSlot_ne_zero (by omega) d))
      obtain ⟨hslot, hhead⟩ := h.appended (getD_mem_logs hk) hmem (Bool.eq_false_of_not_eq_true hclob)
      rw [if_neg (by simp [hclob])]
      rcases @candidateOffset_eq base r.slot with ⟨d, hd, hle, hdslot⟩ | ⟨hnone, hout⟩
      · rw [hd]
        dsimp only
        by_cases hmet : d ∈ sets.occupied ∨ d ∈ sets.deleted
        · rw [if_pos hmet]
          refine hnext sets (hprobed.pass fun e _ _ => ?_)
          rw [← hdslot]
          exact (hprobed.met_iff hle).mp hmet
        have hnew : Journal.latest r.slot (entries seen) = none := by
          rw [← hdslot]
          exact not_not.mp fun h => hmet ((hprobed.met_iff hle).mpr h)
        rw [if_neg hmet]
        by_cases h0 : r.head = 0
        · rw [if_pos h0]
          exact hnext _ (hprobed.delete h1 h2 hle hdslot hnew h0)
        have hmap : logMap logs.flatten r.slot = r.head := by
          refine @latest_suffix _ (r :: seen) _ _ ((List.suffix_append _ _).trans hsuf) ?_
          rw [latest_cons, hnew, if_pos rfl]
          rfl
        have hroot := hread r.slot (hmap ▸ h0)
        rw [hmap] at hroot
        rw [if_neg h0, if_neg fun hrange => hhead ⟨h0, hrange⟩, bind_of_ok hroot]
        by_cases hname : cstr (root r.slot).name = cstr name
        · right
          refine ⟨{ sets with occupied := d :: sets.occupied }, r.slot,
            mem_probeWindow.mpr ⟨d, by omega, hdslot⟩, slotNamed_iff.mpr ⟨hmap ▸ h0, hname⟩, ?_⟩
          rw [if_pos hname, hmap]
          rfl
        · rw [if_neg hname]
          exact hnext _ (hprobed.occupy h1 h2 hle hdslot hnew h0 hname)
      · rw [hnone]
        exact hnext sets (hprobed.pass fun d hd heq => absurd heq (hout d hd))
    · next hge =>
      have htake : (logs.getD k []).take (j + 1) = (logs.getD k []).take j := by
        rw [List.take_of_length_le (by omega), List.take_of_length_le (by omega)]
      rw [htake] at hsuf ⊢
      rw [if_pos (.inl hr)]
      exact ih (by omega) (by omega) hsuf hprobed

/-- At most one live slot has the name. -/
def OneNamed (f : Nat → Nat) (root : Nat → RootMd) (name : List Byte) : Prop :=
  ∀ s s', slotNamed f root name s = true → slotNamed f root name s' = true → s = s'

theorem LiveRoots.oneNamed {w : World} {f : Nat → Nat} (hlive : LiveRoots w useCache f root) :
    OneNamed f root name := by
  intro s s' hs hs'
  obtain ⟨h0, hname⟩ := slotNamed_iff.mp hs
  obtain ⟨h0', hname'⟩ := slotNamed_iff.mp hs'
  exact hlive.distinct s s' h0 h0' (hname.trans hname'.symm)

/-- A name of the window is that of one slot. -/
theorem OneNamed.find_eq {f : Nat → Nat} (hone : OneNamed f root name) {window : List Nat} {slot : Nat}
    (hmem : slot ∈ window) (hnamed : slotNamed f root name slot = true) :
    window.find? (slotNamed f root name) = some slot := by
  cases hfind : window.find? (slotNamed f root name) with
  | none => exact absurd hnamed (List.find?_eq_none.mp hfind slot hmem)
  | some slot' => rw [hone slot' slot (List.find?_some hfind) hnamed]

/-- The sector loop of a build without a cache. -/
theorem resolveScan_run (h : LogOn w logs) (hp : LogPlaced w)
    (hread : RootsReadable w useCache (logMap logs.flatten) root)
    (hone : OneNamed (logMap logs.flatten) root name) (h1 : 1 ≤ base) (h2 : base < uint16Max)
    {n : Nat} (hn : n ≤ logs.length) {sets : ProbeSets}
    (hprobed : Probed root name base (logs.drop n).flatten sets) :
    (resolveScan name useCache base n sets).run w =
      (resolveOutcome w (logMap logs.flatten) root name (probeWindow base 0 (maxProbeDistance + 1)) none,
        w) := by
  induction n generalizing sets with
  | zero =>
    rw [List.drop_zero] at hprobed
    -- the whole log has been gone through: no slot of the window has the name
    have hocc : ∀ d ≤ maxProbeDistance,
        d ∈ sets.occupied ↔ logMap logs.flatten (candidateSlot base d) ≠ 0 := by
      intro d hd
      rw [hprobed.occupied d hd, logMap_eq_latest]
      cases Journal.latest (candidateSlot base d) (entries logs.flatten) with
      | none => simp
      | some head => simp
    have hnone : (probeWindow base 0 (maxProbeDistance + 1)).find?
        (slotNamed (logMap logs.flatten) root name) = none := by
      rw [List.find?_eq_none]
      intro slot hmem hnamed
      obtain ⟨d, hd, rfl⟩ := mem_probeWindow.mp hmem
      obtain ⟨h0, hname⟩ := slotNamed_iff.mp hnamed
      exact hprobed.other d (by omega) ((hocc d (by omega)).mpr h0) hname
    have hreached := @resolveReachedSlot_run w (logMap logs.flatten) base sets.occupied
      (maxProbeDistance + 1) 0 fun e _ he => hocc e (by omega)
    rw [resolveScan, resolveOutcome, hnone]
    dsimp only
    rw [Option.none_or]
    cases hfind : (probeWindow base 0 (maxProbeDistance + 1)).find? (slotOpen w (logMap logs.flatten)) with
    | none =>
      rw [hfind] at hreached
      exact bind_of_error hreached
    | some slot =>
      rw [hfind] at hreached
      exact bind_of_ok hreached
  | succ n ih =>
    have hlt : n < logs.length := by omega
    obtain ⟨hlen, hplaces⟩ := h.le_searched hlt
    have htake : (logs.getD n []).take (searched w logs n) = logs.getD n [] :=
      List.take_of_length_le hlen
    have hflat : (logs.getD n []).take (searched w logs n) ++ (logs.drop (n + 1)).flatten =
        (logs.drop n).flatten := by
      rw [htake, drop_logs hlt, List.flatten_cons]
    have hsuf : (logs.drop n).flatten <:+ logs.flatten :=
      ⟨(logs.take n).flatten, by rw [← List.flatten_append, List.take_append_drop]⟩
    rw [resolveScan, bind_of_ok (run_getFs w)]
    dsimp only
    rw [h.indexSectorEnd_eq hp hlt]
    rcases @resolveInSector_run _ _ name _ _ _ h hp hread h1 h2 _ _ w.fs.sectorSize hlt hplaces
      (by rw [recordPlaces, headerSize] at hplaces; omega) _ _ (hflat ▸ hsuf) hprobed with
      ⟨sets', hrun, hprobed'⟩ | ⟨sets', slot, hmem, hnamed, hrun⟩
    · rw [hflat] at hprobed'
      exact (bind_of_ok hrun).trans (ih (by omega) hprobed')
    · rw [resolveOutcome, hone.find_eq hmem hnamed]
      exact bind_of_ok hrun

end Resolve

section Index

variable [Opts] {w : World} {logs : List (List IndexRecord)} {root : Nat → RootMd} {useCache : Bool}

/-- `fffs_index_resolve` in terms of the map of the log. -/
def nameOutcome (w : World) (f : Nat → Nat) (root : Nat → RootMd) (name : List Byte) :
    Except Status Resolved :=
  if (cstr name).length = 0 then .error .invalid
  else if (cstr name).length > maxName then .error .nameTooLong
  else resolveOutcome w f root name
    (probeWindow (normalizeSlotBase (hash16 name)) 0 (maxProbeDistance + 1)) none

/-- `fffs_index_resolve`. -/
theorem indexResolve_run (h : LogOn w logs) (hp : LogPlaced w)
    (hc : CacheIs w.fs (logMap logs.flatten))
    (hread : RootsReadable w useCache (logMap logs.flatten) root) {name : List Byte}
    (hone : OneNamed (logMap logs.flatten) root name) :
    (indexResolve name useCache).run w = (nameOutcome w (logMap logs.flatten) root name, w) := by
  rw [indexResolve, nameOutcome]
  by_cases hempty : (cstr name).length = 0
  · rw [if_pos hempty, if_pos hempty]
    rfl
  by_cases hlong : (cstr name).length > maxName
  · rw [if_neg hempty, if_neg hempty, if_pos hlong, if_pos hlong]
    rfl
  rw [if_neg hempty, if_neg hempty, if_neg hlong, if_neg hlong]
  obtain ⟨h1, h2⟩ := normalizeSlotBase_range (hash16 name) (u16_lt _)
  generalize normalizeSlotBase (hash16 name) = base at h1 h2 ⊢
  have hcached := @resolveProbe_run _ _ _ name _ _ _
    (fun slot hslot => indexHeadForSlot_run h hp hc hslot) hread (show base ≠ 0 by omega)
    (maxProbeDistance + 1) 0 none
  rw [candidateSlot] at hcached
  cases hm : Opts.indexCacheMode with
  | none =>
    have hscan := @resolveScan_run _ _ name _ _ _ h hp hread hone h1 h2 logs.length le_rfl {}
      (by rw [List.drop_length]; exact Probed.start)
    dsimp only
    rw [bind_of_ok (run_getFs w), ← h.count, hscan]
  | hashHeads =>
    dsimp only
    rw [hcached]
  | fullSlotHeads =>
    dsimp only
    rw [hcached]

end Index

/-! ## Enumerating the index -/

section Enumerate

variable [Opts] {w : World}

/-- Reading from the cursor to the end gives the records, in this order. -/
def IterReads (w : World) : IndexIter → List IndexRecord → Prop
  | it, [] => ∃ it', (Windowed.indexIterRead it).run w = (.ok (none, it'), w)
  | it, r :: rs => ∃ it', (Windowed.indexIterRead it).run w = (.ok (some r, it'), w) ∧ IterReads w it' rs

/-- The records stand for the map: one for each live slot. -/
structure Lists (f : Nat → Nat) (rs : List IndexRecord) : Prop where
  nodup : (rs.map IndexRecord.slot).Nodup
  sound : ∀ r ∈ rs, f r.slot = r.head ∧ r.head ≠ 0
  complete : ∀ slot, f slot ≠ 0 → ⟨slot, f slot⟩ ∈ rs

omit [Opts] in
theorem Lists.mem_iff {f : Nat → Nat} {rs : List IndexRecord} (h : Lists f rs) {r : IndexRecord} :
    r ∈ rs ↔ f r.slot = r.head ∧ r.head ≠ 0 := by
  constructor
  · exact h.sound r
  · rintro ⟨heq, h0⟩
    have hmem := h.complete r.slot (heq ▸ h0)
    rwa [heq] at hmem

omit [Opts] in
/-- Two enumerations of a map have the same records. -/
theorem Lists.perm {f : Nat → Nat} {rs rs' : List IndexRecord} (h : Lists f rs) (h' : Lists f rs') :
    rs.Perm rs' :=
  (List.perm_ext_iff_of_nodup h.nodup.of_map h'.nodup.of_map).mpr fun r => by
    rw [h.mem_iff, h'.mem_iff]

/-- The first position with an entry, from `pos` on. -/
def firstFrom (g : Nat → Option IndexRecord) : Nat → Nat → Option IndexRecord × Nat
  | 0, pos => (none, pos)
  | n + 1, pos =>
      match g pos with
      | none => firstFrom g n (pos + 1)
      | some r => (some r, pos + 1)

omit [Opts] in
theorem firstFrom_eq {g : Nat → Option IndexRecord} {n pos : Nat} :
    ((firstFrom g n pos).1 = none ∧ (List.range' pos n).filterMap g = []) ∨
      ∃ r pos', firstFrom g n pos = (some r, pos') ∧ pos < pos' ∧ pos' ≤ pos + n ∧
        (List.range' pos n).filterMap g = r :: (List.range' pos' (pos + n - pos')).filterMap g := by
  induction n generalizing pos with
  | zero => exact .inl ⟨rfl, rfl⟩
  | succ n ih =>
    rw [firstFrom, List.range'_succ, List.filterMap_cons]
    cases hg : g pos with
    | some r =>
      exact .inr ⟨r, pos + 1, rfl, by omega, by omega, by
        rw [show pos + (n + 1) - (pos + 1) = n by omega]⟩
    | none =>
      dsimp only
      rcases @ih (pos + 1) with h | ⟨r, pos', h1, h2, h3, h4⟩
      · exact .inl h
      · exact .inr ⟨r, pos', h1, by omega, by omega, by
          rw [h4, show pos + 1 + n = pos + (n + 1) by omega]⟩

/-- The entry of a bucket. -/
def bucketRecord (table : List IndexBucket) (p : Nat) : Option IndexRecord :=
  (bucketAt table p).map fun e => ⟨e.1, e.2⟩

/-- The entry of a slot in an array of heads. -/
def headRecord (heads : Nat → Nat) (slot : Nat) : Option IndexRecord :=
  (headOf (heads slot)).map fun head => ⟨slot, head⟩

omit [Opts] in
theorem iterBuckets_eq (table : List IndexBucket) (n pos : Nat) :
    iterBuckets table n pos = firstFrom (bucketRecord table) n pos := by
  induction n generalizing pos with
  | zero => rfl
  | succ n ih =>
    rw [iterBuckets, firstFrom, bucketRecord, bucketAt]
    by_cases h0 : (table.getD pos {}).slot = 0
    · rw [if_pos h0, if_pos h0, ih]
      rfl
    · rw [if_neg h0, if_neg h0]
      rfl

omit [Opts] in
theorem iterHeads_eq (heads : Nat → Nat) (n pos : Nat) :
    iterHeads heads n pos = firstFrom (headRecord heads) n pos := by
  induction n generalizing pos with
  | zero => rfl
  | succ n ih =>
    rw [iterHeads, firstFrom, headRecord, headOf]
    by_cases h0 : heads pos = 0
    · rw [if_pos h0, if_pos h0, ih]
      rfl
    · rw [if_neg h0, if_neg h0]
      rfl

/-- An enumeration that goes through `size` positions. -/
theorem iterReads_from {g : Nat → Option IndexRecord} {size : Nat}
    (hstep : ∀ it : IndexIter, (Windowed.indexIterRead it).run w =
      (.ok ((firstFrom g (size - it.pos) it.pos).1,
        { it with pos := (firstFrom g (size - it.pos) it.pos).2 }), w))
    {n : Nat} {it : IndexIter} (hn : size - it.pos ≤ n) :
    IterReads w it ((List.range' it.pos (size - it.pos)).filterMap g) := by
  induction n generalizing it with
  | zero =>
    have hrun := hstep it
    rw [show size - it.pos = 0 by omega] at hrun ⊢
    exact ⟨it, hrun⟩
  | succ n ih =>
    rcases @firstFrom_eq g (size - it.pos) it.pos with
      ⟨hnone, hnil⟩ | ⟨r, pos', hfirst, h1, h2, hcons⟩
    · rw [hnil]
      exact ⟨_, (hstep it).trans (by rw [hnone])⟩
    · rw [hcons]
      refine ⟨{ it with pos := pos' }, (hstep it).trans (by rw [hfirst]), ?_⟩
      have hrest := @ih { it with pos := pos' } (by dsimp only; omega)
      rwa [show it.pos + (size - it.pos) - pos' = size - pos' by omega]

omit [Opts] in
theorem bucketRecord_eq_some {table : List IndexBucket} {p : Nat} {r : IndexRecord} :
    bucketRecord table p = some r ↔ bucketAt table p = some (r.slot, r.head) := by
  rw [bucketRecord, Option.map_eq_some_iff]
  constructor
  · rintro ⟨e, he, rfl⟩
    exact he
  · exact fun hb => ⟨_, hb, rfl⟩

/-- The entries of the hash table, in the order of the buckets. -/
def tableRecords (fs : Fs) : List IndexRecord :=
  (List.range' 0 fs.indexHashTableSize).filterMap (bucketRecord fs.buckets)

omit [Opts] in
theorem TableIs.nodup_records {fs : Fs} {g : Nat → Option Nat} (h : TableIs fs g) :
    ((tableRecords fs).map IndexRecord.slot).Nodup := by
  rw [tableRecords, List.Nodup, List.pairwise_map, List.pairwise_filterMap]
  refine List.Pairwise.imp_of_mem (fun {p q} hp hq hne r hr r' hr' heq => hne ?_) List.nodup_range'
  rw [List.mem_range'_1] at hp hq
  have hb := bucketRecord_eq_some.mp hr
  rw [heq] at hb
  exact h.probing.unique p q r'.slot r.head r'.head (by omega) (by omega) hb
    (bucketRecord_eq_some.mp hr')

omit [Opts] in
theorem TableIs.mem_records {fs : Fs} {g : Nat → Option Nat} (h : TableIs fs g) {r : IndexRecord} :
    r ∈ tableRecords fs ↔ g r.slot = some r.head := by
  rw [tableRecords, List.mem_filterMap]
  constructor
  · rintro ⟨p, hp, hr⟩
    rw [List.mem_range'_1] at hp
    exact h.sound p (by omega) r.slot r.head (bucketRecord_eq_some.mp hr)
  · intro hg
    obtain ⟨p, hp, hb⟩ := h.complete r.slot r.head hg
    exact ⟨p, by rw [List.mem_range'_1]; omega, bucketRecord_eq_some.mpr hb⟩

omit [Opts] in
/-- The enumeration of the hash table. -/
theorem HashIs.lists {fs : Fs} {f : Nat → Nat} (h : HashIs fs f) : Lists f (tableRecords fs) := by
  refine ⟨h.table.nodup_records, fun r hr => ?_, fun slot h0 => ?_⟩
  · exact (headOf_eq_some.mp (h.table.mem_records.mp hr)).symm
  · exact h.table.mem_records.mpr (headOf_eq_some.mpr ⟨h0, rfl⟩)

/-- The enumeration of the hash table backend goes through the buckets. -/
theorem iterReads_table (hmode : Opts.indexCacheMode = .hashHeads) :
    IterReads w {} (tableRecords w.fs) := by
  refine @iterReads_from _ _ (bucketRecord w.fs.buckets) w.fs.indexHashTableSize ?_ _ _ le_rfl
  intro it
  rw [Windowed.indexIterRead, hmode]
  dsimp only
  rw [indexIterRead, bind_of_ok (run_getFs w)]
  dsimp only
  rw [hmode, ← iterBuckets_eq]
  rfl

omit [Opts] in
/-- The enumeration of an array of heads. -/
theorem headRecord_lists {f : Nat → Nat} (hbound : ∀ slot, f slot ≠ 0 → slot < slotCount) :
    Lists f ((List.range' 0 slotCount).filterMap (headRecord f)) := by
  have hmem : ∀ {p : Nat} {r : IndexRecord}, headRecord f p = some r →
      r.slot = p ∧ f p = r.head ∧ r.head ≠ 0 := by
    intro p r hr
    rw [headRecord, headOf] at hr
    split_ifs at hr with h0
    · cases hr
    · cases hr
      exact ⟨rfl, rfl, h0⟩
  refine ⟨?_, fun r hr => ?_, fun slot h0 => ?_⟩
  · rw [List.Nodup, List.pairwise_map, List.pairwise_filterMap]
    refine List.Pairwise.imp (fun {p q} hne r hr r' hr' heq => hne ?_) List.nodup_range'
    rw [← (hmem hr).1, ← (hmem hr').1, heq]
  · obtain ⟨p, -, hr⟩ := List.mem_filterMap.mp hr
    obtain ⟨hslot, hf, h0⟩ := hmem hr
    exact ⟨hslot ▸ hf, h0⟩
  · refine List.mem_filterMap.mpr ⟨slot, by rw [List.mem_range'_1]; have := hbound slot h0; omega, ?_⟩
    rw [headRecord, headOf, if_neg h0]
    rfl

/-! ## Enumerating the log -/

/-- The records of a log that no later record of their slot replaces, and that are no
deletes. -/
def currentRecords : List IndexRecord → List IndexRecord
  | [] => []
  | r :: rs => if r.head = 0 ∨ rs.any (·.slot == r.slot) then currentRecords rs else r :: currentRecords rs

omit [Opts] in
theorem currentRecords_sublist (rs : List IndexRecord) : (currentRecords rs).Sublist rs := by
  induction rs with
  | nil => exact List.Sublist.slnil
  | cons r rs ih =>
    rw [currentRecords]
    split
    · exact ih.cons r
    · exact ih.cons_cons r

omit [Opts] in
theorem latest_eq_none {slot : Nat} {rs : List IndexRecord} :
    Journal.latest slot (entries rs) = none ↔ rs.any (·.slot == slot) = false := by
  rw [Journal.latest_eq_none_iff, ← Bool.not_eq_true, List.any_eq_true, not_iff_not, entries, List.map_map,
    List.mem_map]
  constructor
  · rintro ⟨r, hr, rfl⟩
    exact ⟨r, hr, beq_self_eq_true _⟩
  · rintro ⟨r, hr, heq⟩
    exact ⟨r, hr, beq_iff_eq.mp heq⟩

omit [Opts] in
/-- The current records stand for the map of the log. -/
theorem currentRecords_lists (rs : List IndexRecord) : Lists (logMap rs) (currentRecords rs) := by
  have hmap : ∀ (r : IndexRecord) (rs : List IndexRecord) (slot : Nat),
      logMap (r :: rs) slot = if rs.any (·.slot == slot) = false ∧ r.slot = slot then r.head
        else logMap rs slot := by
    intro r rs slot
    rw [logMap_eq_latest, logMap_eq_latest, latest_cons]
    by_cases hnone : rs.any (·.slot == slot) = false
    · rw [latest_eq_none.mpr hnone, Option.none_or]
      by_cases hslot : r.slot = slot
      · rw [if_pos hslot, if_pos ⟨hnone, hslot⟩, Option.getD_some]
      · rw [if_neg hslot, if_neg fun h => hslot h.2]
    · obtain ⟨head, hhead⟩ := Option.ne_none_iff_exists'.mp fun h => hnone (latest_eq_none.mp h)
      rw [hhead, Option.some_or, if_neg fun h => hnone h.1]
  induction rs with
  | nil => exact ⟨List.nodup_nil, by simp [currentRecords], fun slot h0 => absurd rfl h0⟩
  | cons r rs ih =>
    obtain ⟨hnodup, hsound, hcomplete⟩ := ih
    rw [currentRecords]
    by_cases hskip : r.head = 0 ∨ rs.any (·.slot == r.slot) = true
    · rw [if_pos hskip]
      have hsame : ∀ slot, logMap rs slot ≠ 0 → logMap (r :: rs) slot = logMap rs slot := by
        intro slot h0
        rw [hmap, if_neg]
        rintro ⟨hnone, -⟩
        rw [logMap_eq_latest, latest_eq_none.mpr hnone] at h0
        exact h0 rfl
      refine ⟨hnodup, fun r' hr' => ?_, fun slot h0 => ?_⟩
      · obtain ⟨h1, h2⟩ := hsound r' hr'
        exact ⟨(hsame r'.slot (h1 ▸ h2)).trans h1, h2⟩
      · rw [hmap] at h0 ⊢
        have hold : ¬ (rs.any (·.slot == slot) = false ∧ r.slot = slot) := by
          rintro ⟨hnone, rfl⟩
          rw [if_pos ⟨hnone, rfl⟩] at h0
          rcases hskip with hzero | hany
          · exact h0 hzero
          · rw [hany] at hnone
            cases hnone
        rw [if_neg hold] at h0 ⊢
        exact hcomplete slot h0
    · rw [not_or, Bool.not_eq_true] at hskip
      have hother : ∀ r' ∈ currentRecords rs, r'.slot ≠ r.slot := by
        intro r' hr' heq
        have hmem := List.any_eq_false.mp hskip.2 r' ((currentRecords_sublist rs).subset hr')
        exact hmem (beq_iff_eq.mpr heq)
      rw [if_neg (by simp [hskip])]
      refine ⟨?_, fun r' hr' => ?_, fun slot h0 => ?_⟩
      · rw [List.map_cons, List.nodup_cons]
        refine ⟨fun hmem => ?_, hnodup⟩
        obtain ⟨r', hr', heq⟩ := List.mem_map.mp hmem
        exact hother r' hr' heq
      · rcases List.mem_cons.mp hr' with rfl | hr'
        · rw [hmap, if_pos ⟨hskip.2, rfl⟩]
          exact ⟨rfl, hskip.1⟩
        · rw [hmap, if_neg fun h => hother r' hr' h.2.symm]
          exact hsound r' hr'
      · rw [hmap] at h0 ⊢
        by_cases hslot : r.slot = slot
        · subst hslot
          rw [if_pos ⟨hskip.2, rfl⟩]
          exact List.mem_cons_self
        · rw [if_neg fun h => hslot h.2] at h0 ⊢
          exact List.mem_cons_of_mem r (hcomplete slot h0)

section Log

variable {logs : List (List IndexRecord)}

/-- The records of the log from place `j` of sector `k` on. -/
def logFrom (logs : List (List IndexRecord)) (k j : Nat) : List IndexRecord :=
  (logs.getD k []).drop j ++ (logs.drop (k + 1)).flatten

omit [Opts] in
/-- The record loop of `current_index_entry_read`, from place `j` of sector `k` on. -/
theorem currentEntryInSector_run (h : LogOn w logs) (hp : LogPlaced w) {k j fuel : Nat} {it : IndexIter}
    (hk : k < logs.length) (hj : j ≤ searched w logs k) (hfuel : searched w logs k ≤ j + fuel) :
    (∃ r j', (currentEntryInSector k (logBegin w.fs k + 4 * searched w logs k) fuel
          (logBegin w.fs k + 4 * j) it).run w =
        (.ok (some r, { it with cursorSeqPos := k, cursorOffset := logBegin w.fs k + 4 * j' }), w) ∧
        j' ≤ searched w logs k ∧ currentRecords (logFrom logs k j) = r :: currentRecords (logFrom logs k j')) ∨
      ∃ it', (currentEntryInSector k (logBegin w.fs k + 4 * searched w logs k) fuel
          (logBegin w.fs k + 4 * j) it).run w = (.ok (none, it'), w) ∧
        currentRecords (logFrom logs k j) = currentRecords (logs.drop (k + 1)).flatten := by
  obtain ⟨hlen, hplaces⟩ := h.le_searched hk
  have hend : ∀ {j}, (logs.getD k []).length ≤ j →
      currentRecords (logFrom logs k j) = currentRecords (logs.drop (k + 1)).flatten := by
    intro j hle
    rw [logFrom, List.drop_eq_nil_of_le hle, List.nil_append]
  induction fuel generalizing j it with
  | zero => exact .inr ⟨it, rfl, hend (by omega)⟩
  | succ fuel ih =>
    rw [currentEntryInSector]
    by_cases hlt : j < searched w logs k
    · obtain ⟨r, hrun, hr⟩ := h.readIndexRecord_at hp hk (show j < recordPlaces w.fs by omega)
      rw [if_pos (by omega)]
      dsimp only
      rw [bind_of_ok hrun]
      split at hr
      · next hlt' =>
        obtain ⟨hreq, herased⟩ := hr
        have hmem : r ∈ logs.getD k [] := by
          rw [hreq, List.getD_eq_getElem _ _ hlt']
          exact List.getElem_mem hlt'
        have hfrom : logFrom logs k j = r :: logFrom logs k (j + 1) := by
          rw [logFrom, logFrom, hreq, List.getD_eq_getElem _ _ hlt', List.drop_eq_getElem_cons hlt',
            List.cons_append]
        have hoff : logBegin w.fs k + 4 * j + 4 = logBegin w.fs k + 4 * (j + 1) := by omega
        rw [herased, hfrom, hoff]
        have hnext := @ih (j + 1)
          { it with cursorSeqPos := k, cursorOffset := logBegin w.fs k + 4 * (j + 1) }
          (by omega) (by omega)
        have hskip : r.head = 0 ∨ (logFrom logs k (j + 1)).any (·.slot == r.slot) = true →
            currentRecords (r :: logFrom logs k (j + 1)) = currentRecords (logFrom logs k (j + 1)) :=
          fun hs => if_pos hs
        rw [if_neg (by simp)]
        by_cases hzero : r.head = 0
        · rw [if_pos (.inr hzero), hskip (.inl hzero)]
          exact hnext
        have hclob : r.clobbered = false := by
          rw [IndexRecord.clobbered, beq_false_of_ne hzero, Bool.and_false]
        have hslot := (h.appended (getD_mem_logs hk) hmem hclob).1
        rw [if_neg (by simp [hclob, hzero]), bind_of_ok (newerRecordForSlot_run h hp hslot hk hlt')]
        cases hany : (logFrom logs k (j + 1)).any (·.slot == r.slot) with
        | true =>
          rw [logFrom] at hany
          rw [hany, if_pos rfl, hskip (.inr (by rw [logFrom, hany]))]
          exact hnext
        | false =>
          have hkeep : currentRecords (r :: logFrom logs k (j + 1)) =
              r :: currentRecords (logFrom logs k (j + 1)) := if_neg (by simp [hzero, hany])
          rw [logFrom] at hany
          rw [hany, if_neg (by simp)]
          exact .inl ⟨r, j + 1, rfl, by omega, hkeep⟩
      · next hge =>
        rw [if_pos hr]
        exact .inr ⟨_, rfl, hend (by omega)⟩
    · rw [if_neg (by omega)]
      exact .inr ⟨it, rfl, hend (by omega)⟩

omit [Opts] in
/-- The sector loop of `current_index_entry_read`. -/
theorem currentEntryLoop_run (h : LogOn w logs) (hp : LogPlaced w) {n k j : Nat} {it : IndexIter}
    (hn : k + n = logs.length) (hj : 0 < n → j ≤ searched w logs k) :
    (∃ r it' k' j', (currentEntryLoop n k (logBegin w.fs k + 4 * j) it).run w = (.ok (some r, it'), w) ∧
        it'.cursorSeqPos = k' ∧ it'.cursorOffset = logBegin w.fs k' + 4 * j' ∧
        k' < logs.length ∧ j' ≤ searched w logs k' ∧
        currentRecords (logFrom logs k j) = r :: currentRecords (logFrom logs k' j')) ∨
      ∃ it', (currentEntryLoop n k (logBegin w.fs k + 4 * j) it).run w = (.ok (none, it'), w) ∧
        (0 < n → currentRecords (logFrom logs k j) = []) := by
  induction n generalizing k j it with
  | zero => exact .inr ⟨it, rfl, fun h0 => absurd h0 (by omega)⟩
  | succ n ih =>
    have hk : k < logs.length := by omega
    obtain ⟨-, hplaces⟩ := h.le_searched hk
    have hfuel : searched w logs k ≤ j + w.fs.sectorSize := by
      rw [recordPlaces, headerSize] at hplaces
      omega
    rw [currentEntryLoop, bind_of_ok (run_getFs w), h.indexSectorEnd_eq hp hk]
    rcases @currentEntryInSector_run _ _ h hp _ _ _ it hk (hj (by omega)) hfuel with
      ⟨r, j', hrun, hj', hcur⟩ | ⟨it', hrun, hcur⟩
    · exact .inl ⟨r, _, k, j', bind_of_ok hrun, rfl, rfl, hk, hj', hcur⟩
    · rw [bind_of_ok hrun]
      dsimp only
      by_cases hlast : k + 1 < w.fs.indexSequenceCount
      · rw [if_pos hlast]
        have hcount := h.count
        have hcur' : currentRecords (logFrom logs k j) = currentRecords (logFrom logs (k + 1) 0) := by
          rw [hcur, drop_logs (by omega), List.flatten_cons, logFrom, List.drop_zero]
        rw [hcur']
        rcases @ih (k + 1) 0
          { it' with cursorSeqPos := k + 1, cursorOffset := logBegin w.fs (k + 1) }
          (by omega) fun _ => Nat.zero_le _ with ⟨r, it'', k', j', hrun', hrest⟩ | ⟨it'', hrun', hnil⟩
        · exact .inl ⟨r, it'', k', j', hrun', hrest⟩
        · exact .inr ⟨it'', hrun', fun _ => hnil (by omega)⟩
      · have hcount := h.count
        have hnil : logs.drop (k + 1) = [] := List.drop_eq_nil_of_le (by omega)
        rw [if_neg hlast]
        refine .inr ⟨it', rfl, fun _ => ?_⟩
        rw [hcur, hnil]
        rfl

/-- `fffs_index_iter_read` without a cache, for a cursor at place `j` of sector `k`. -/
theorem indexIterRead_log (hmode : Opts.indexCacheMode = .none) (h : LogOn w logs) (hp : LogPlaced w)
    {k j : Nat} {it : IndexIter} (hk : k < logs.length) (hseq : it.cursorSeqPos = k)
    (hoff : (if it.cursorSeqPos = 0 ∧ it.cursorOffset = 0 then
      indexSectorBegin w.fs (logicalIndexSector w.fs 0) else it.cursorOffset) = logBegin w.fs k + 4 * j) :
    (Windowed.indexIterRead it).run w =
      (currentEntryLoop (logs.length - k) k (logBegin w.fs k + 4 * j) it).run w := by
  rw [Windowed.indexIterRead, hmode]
  dsimp only
  rw [(currentIndexEntryRead_windows h hp hk hseq hoff).start, currentIndexEntryRead,
    bind_of_ok (run_getFs w)]
  dsimp only
  rw [hoff, hseq, h.count]

/-- The enumeration of a build without a cache, from place `j` of sector `k` on. -/
theorem iterReads_log (hmode : Opts.indexCacheMode = .none) (h : LogOn w logs) (hp : LogPlaced w)
    {n k j : Nat} {it : IndexIter} (hk : k < logs.length) (hj : j ≤ searched w logs k)
    (hread : (Windowed.indexIterRead it).run w =
      (currentEntryLoop (logs.length - k) k (logBegin w.fs k + 4 * j) it).run w)
    (hn : (currentRecords (logFrom logs k j)).length ≤ n) :
    IterReads w it (currentRecords (logFrom logs k j)) := by
  induction n generalizing k j it with
  | zero =>
    rcases @currentEntryLoop_run _ _ h hp _ _ _ it
      (show k + (logs.length - k) = logs.length by omega) fun _ => hj with
      ⟨r, it', k', j', -, -, -, -, -, hcur⟩ | ⟨it', hrun, hnil⟩
    · rw [hcur, List.length_cons] at hn
      omega
    · rw [hnil (by omega)]
      exact ⟨it', hread.trans hrun⟩
  | succ n ih =>
    rcases @currentEntryLoop_run _ _ h hp _ _ _ it
      (show k + (logs.length - k) = logs.length by omega) fun _ => hj with
      ⟨r, it', k', j', hrun, hseq', hoff', hk', hj', hcur⟩ | ⟨it', hrun, hnil⟩
    · rw [hcur, List.length_cons] at hn
      rw [hcur]
      have hbegin : 0 < logBegin w.fs k' := by
        rw [logBegin, indexSectorBegin, headerSize]
        omega
      have hcursor : (if it'.cursorSeqPos = 0 ∧ it'.cursorOffset = 0 then
          indexSectorBegin w.fs (logicalIndexSector w.fs 0) else it'.cursorOffset) =
          logBegin w.fs k' + 4 * j' := by
        rw [if_neg fun h0 => by omega, hoff']
      exact ⟨it', hread.trans hrun, ih hk' hj' (indexIterRead_log hmode h hp hk' hseq' hcursor) (by omega)⟩
    · rw [hnil (by omega)]
      exact ⟨it', hread.trans hrun⟩

omit [Opts] in
/-- The map of a log has no slot above `0xffff`. -/
theorem LogOn.slot_lt (h : LogOn w logs) {slot : Nat} (h0 : logMap logs.flatten slot ≠ 0) :
    slot < slotCount := by
  obtain ⟨r, hr', rfl⟩ := logMap_record h0
  obtain ⟨rs, hrs, hmem⟩ := List.mem_flatten.mp hr'
  obtain ⟨k, hk, rfl⟩ := List.getElem_of_mem hrs
  obtain ⟨j, hj, rfl⟩ := List.getElem_of_mem hmem
  have hrec := (h.records k hk).getD (j := j) (by rw [List.getD_eq_getElem _ _ hk]; exact hj)
  rw [List.getD_eq_getElem _ _ hk, List.getD_eq_getElem _ _ hj] at hrec
  change (logs[k][j]).slot < slotCount
  rw [← hrec.1]
  exact (recordAt_lt _ _).1

/-- Every backend enumerates the live slots of the log, each once. -/
theorem indexIter_lists (h : LogOn w logs) (hp : LogPlaced w)
    (hc : CacheIs w.fs (logMap logs.flatten)) :
    ∃ rs, IterReads w {} rs ∧ Lists (logMap logs.flatten) rs := by
  rw [CacheIs] at hc
  cases hm : Opts.indexCacheMode with
  | none =>
    have hpos : 0 < logs.length := h.count ▸ hp.count_pos
    have hflat : logFrom logs 0 0 = logs.flatten := by
      rw [logFrom, List.drop_zero, ← List.flatten_cons, ← drop_logs hpos, List.drop_zero]
    refine ⟨_, @iterReads_log _ _ _ hm h hp _ _ _ {} hpos (Nat.zero_le _) ?_ le_rfl, ?_⟩
    · exact indexIterRead_log hm h hp hpos rfl (if_pos ⟨rfl, rfl⟩)
    · rw [hflat]
      exact currentRecords_lists _
  | hashHeads =>
    rw [hm] at hc
    exact ⟨_, iterReads_table hm, hc.lists⟩
  | fullSlotHeads =>
    rw [hm] at hc
    refine ⟨_, @iterReads_from _ _ (headRecord w.fs.indexHeads) slotCount ?_ _ _ le_rfl, ?_⟩
    · intro it
      rw [Windowed.indexIterRead, hm]
      dsimp only
      rw [indexIterRead, bind_of_ok (run_getFs w)]
      dsimp only
      rw [hm, ← iterHeads_eq]
      rfl
    · dsimp only at hc
      rw [hc]
      exact headRecord_lists fun slot h0 => h.slot_lt h0

end Log

end Enumerate

/-! ## Two builds -/

/-- The index on the flash of a mounted file system, and what its cache holds. -/
structure IndexHolds [Opts] (w : World) (logs : List (List IndexRecord)) : Prop where
  log : LogOn w logs
  placed : LogPlaced w
  cache : CacheIs w.fs (logMap logs.flatten)

/-- The two file systems are mounted on the same flash, at the same place of the log, and
pin the same slots. -/
structure SameIndex (w w' : World) : Prop where
  dev : w'.dev = w.dev
  view : logView w'.fs = logView w.fs
  pinned : ∀ slot, slotIsPinned w' slot = slotIsPinned w slot

section Agree

variable {o o' : Opts} {w w' : World} {logs : List (List IndexRecord)}

/-- The replay of a mount leaves the map of the log in the cache. -/
theorem indexHolds_replay [Opts] {v : World} {next : Nat} (hv : LogPlaced v)
    (hc : CacheIs v.fs (fun _ => 0)) (hlog : LogOn (v.withNext next) logs)
    (hlive : tailLive v (logs.getLast?.getD []))
    (hfits : cacheFits v.fs.indexHashTableSize logs.flatten) :
    ∃ v', replayIndex.run v = (.ok (), v') ∧ IndexHolds v' logs := by
  obtain ⟨b, heads, cursor, serial, hrun, hcache⟩ := replayIndex_log hv hc hlog hlive hfits
  refine ⟨_, hrun, ?_, ?_, hcache.congr rfl rfl rfl⟩
  · refine hlog.congr rfl (fun _ _ _ _ _ => rfl) fun k => ?_
    exact (logEnd_eq hv.size hv.aligned k).ge
  · exact ⟨⟨hv.plan, hv.scratch, hv.size, hv.aligned, hv.fits⟩, hv.granule_pos, hv.granule_mod, hv.oldest_lt,
      hv.count_pos, @activeLast_congr v.fs _ _ _ rfl rfl hv.last⟩

theorem IndexHolds.head_run [Opts] (h : IndexHolds w logs) {slot : Nat} (hslot : slot ≠ 0) :
    (Windowed.indexHeadForSlot slot).run w = (.ok (headOf (logMap logs.flatten slot)), w) :=
  (indexHeadForSlot_window h.log h.placed slot).trans (indexHeadForSlot_run h.log h.placed h.cache hslot)

theorem IndexHolds.resolve_run [Opts] (h : IndexHolds w logs) {root : Nat → RootMd} {useCache : Bool}
    (hlive : LiveRoots w useCache (logMap logs.flatten) root) (name : List Byte) :
    (Windowed.indexResolve name useCache).run w = (nameOutcome w (logMap logs.flatten) root name, w) :=
  (indexResolve_window h.log h.placed name useCache).trans
    (indexResolve_run h.log h.placed h.cache hlive.readable hlive.oneNamed)

theorem IndexHolds.iter_lists [Opts] (h : IndexHolds w logs) :
    ∃ rs, IterReads w {} rs ∧ Lists (logMap logs.flatten) rs :=
  indexIter_lists h.log h.placed h.cache

theorem SameIndex.sameData (hs : SameIndex w w') (hp : LogPlaced w) : SameData w w' := by
  have hview := hs.view
  simp only [logView, LogView.mk.injEq] at hview
  obtain ⟨h1, h2, h3, -⟩ := hview
  exact ⟨hp.plan, by rw [hs.dev]; exact hp.plan, by rw [hs.dev], h1, h2, h3, fun a _ => by rw [hs.dev]⟩

/-- The same roots can be read. -/
theorem RootsReadable.congr {f : Nat → Nat} {root : Nat → RootMd} {useCache : Bool}
    (h : RootsReadable w useCache f root) (hs : SameData w w') : RootsReadable w' useCache f root := by
  intro slot h0
  obtain ⟨r, h1, h2⟩ := @readFileRootMdPrefix_alike _ _ (f slot) slot useCache hs
  rw [h slot h0] at h1
  rw [h2, ← (Prod.mk.inj h1).1]

theorem LiveRoots.congr {f : Nat → Nat} {root : Nat → RootMd} {useCache : Bool}
    (h : LiveRoots w useCache f root) (hs : SameData w w') : LiveRoots w' useCache f root :=
  ⟨RootsReadable.congr h.readable hs, h.distinct⟩

/-- The outcome of a resolution depends on the slots that are pinned. -/
theorem nameOutcome_congr {f : Nat → Nat} {root : Nat → RootMd} {name : List Byte}
    (hpin : ∀ slot, slotIsPinned w' slot = slotIsPinned w slot) :
    nameOutcome w' f root name = nameOutcome w f root name := by
  have hopen : slotOpen w' f = slotOpen w f := by
    funext slot
    rw [slotOpen, slotOpen, hpin]
  rw [nameOutcome, nameOutcome, resolveOutcome, resolveOutcome, hopen]

/-- Two builds with any of the index backends agree on a log whose live slots have roots
that can be read, with distinct names: on the head of each slot but `0`, on the
resolution of each name, and on the entries they enumerate. -/
theorem backends_agree {root : Bool → Nat → RootMd} (hs : SameIndex w w')
    (h : @IndexHolds o w logs) (h' : @IndexHolds o' w' logs)
    (hlive : ∀ useCache, LiveRoots w useCache (logMap logs.flatten) (root useCache)) :
    (∀ slot, slot ≠ 0 → ((@Windowed.indexHeadForSlot o' slot).run w').1 =
        ((@Windowed.indexHeadForSlot o slot).run w).1) ∧
      (∀ name useCache, ((@Windowed.indexResolve o' name useCache).run w').1 =
        ((@Windowed.indexResolve o name useCache).run w).1) ∧
      ∃ rs rs', @IterReads o w {} rs ∧ @IterReads o' w' {} rs' ∧ rs.Nodup ∧ rs.Perm rs' := by
  have hdata : SameData w w' := hs.sameData (@IndexHolds.placed o _ _ h)
  refine ⟨fun slot hslot => ?_, fun name useCache => ?_, ?_⟩
  · rw [@IndexHolds.head_run w _ o h slot hslot, @IndexHolds.head_run w' _ o' h' slot hslot]
  · rw [@IndexHolds.resolve_run w _ o h _ _ (hlive useCache) name,
      @IndexHolds.resolve_run w' _ o' h' _ _ ((hlive useCache).congr hdata) name]
    exact nameOutcome_congr hs.pinned
  · obtain ⟨rs, hreads, hlists⟩ := @IndexHolds.iter_lists w _ o h
    obtain ⟨rs', hreads', hlists'⟩ := @IndexHolds.iter_lists w' _ o' h'
    exact ⟨rs, rs', hreads, hreads', hlists.nodup.of_map, hlists.perm hlists'⟩

end Agree

section WithCache

variable {w : World} {logs : List (List IndexRecord)}

theorem sameIndex_withCache (w : World) (b : List IndexBucket) (heads : Nat → Nat) :
    SameIndex w (w.withCache b heads) := ⟨rfl, rfl, fun _ => rfl⟩

theorem LogOn.withCache (h : LogOn w logs) (hp : LogPlaced w) (b : List IndexBucket) (heads : Nat → Nat) :
    LogOn (w.withCache b heads) logs :=
  h.congr rfl (fun _ _ _ _ _ => rfl) fun k => (logEnd_eq hp.size hp.aligned k).ge

theorem LogPlaced.withCache (hp : LogPlaced w) (b : List IndexBucket) (heads : Nat → Nat) :
    LogPlaced (w.withCache b heads) :=
  ⟨⟨hp.plan, hp.scratch, hp.size, hp.aligned, hp.fits⟩, hp.granule_pos, hp.granule_mod, hp.oldest_lt,
    hp.count_pos, @activeLast_congr w.fs _ _ _ rfl rfl hp.last⟩

end WithCache

/-- The root of a slot, or an empty one if it cannot be read. -/
def rootAt (w : World) (head slot : Nat) (useCache : Bool) : RootMd :=
  match ((readFileRootMdPrefix head slot useCache).run w).1 with
  | .ok root => root
  | .error _ => ⟨[], 0, 0, 0, 0, 0, []⟩

/-- The live slots are slots of records, so there are finitely many roots to read. -/
theorem liveRoots_log {w : World} {rs : List IndexRecord} {useCache : Bool} (hplan : w.dev.plan = [])
    (hroots : ∀ r ∈ rs, logMap rs r.slot ≠ 0 →
      ((readFileRootMdPrefix (logMap rs r.slot) r.slot useCache).run w).1.isOk = true ∧
        ∀ r' ∈ rs, logMap rs r'.slot ≠ 0 → cstr (rootAt w (logMap rs r.slot) r.slot useCache).name =
          cstr (rootAt w (logMap rs r'.slot) r'.slot useCache).name → r.slot = r'.slot) :
    LiveRoots w useCache (logMap rs) (fun s => rootAt w (logMap rs s) s useCache) := by
  refine ⟨fun s h0 => ?_, fun s s' h0 h0' hname => ?_⟩
  · obtain ⟨r, hr, rfl⟩ := logMap_record h0
    have hsame : ((readFileRootMdPrefix (logMap rs r.slot) r.slot useCache).run w).2 = w := run_of_reads hplan
    refine Prod.ext ?_ hsame
    have hread := (hroots r hr h0).1
    rw [rootAt]
    cases hrun : ((readFileRootMdPrefix (logMap rs r.slot) r.slot useCache).run w).1 with
    | ok root => rfl
    | error e =>
      rw [hrun] at hread
      cases hread
  · obtain ⟨r, hr, rfl⟩ := logMap_record h0
    obtain ⟨r', hr', rfl⟩ := logMap_record h0'
    exact (hroots r hr h0).2 r' hr' h0' hname

/-- A chip with three index sectors.  The files `w` and `b` are written, the index rotates, `w` is
replaced, `b` deleted and `d` written.  A writer of `c` stays open. -/
def rotatedFiles : World :=
  let stored := [.openFile 0 [119#8] writeFlags, .write 0 [1#8, 2#8], .close 0, .openFile 0 [98#8] writeFlags,
    .write 0 [3#8], .close 0].foldl (@stepOp noCacheOpts) ((@mount noCacheOpts smallMount).run (formattedChip 8 3)).2
  [.openFile 0 [119#8] writeFlags, .write 0 [4#8], .close 0, .deleteFile [98#8], .openFile 0 [100#8] writeFlags,
    .write 0 [5#8], .close 0, .openFile 1 [99#8] writeFlags].foldl (@stepOp noCacheOpts)
      ((@rotateIndex noCacheOpts).run stored).2

/-- The log of `rotatedFiles`. -/
def rotatedLog : List (List IndexRecord) :=
  [[⟨52538, 3⟩, ⟨51945, 4⟩], [⟨52538, 5⟩, ⟨51945, 0⟩, ⟨50559, 6⟩]]

/-- `rotatedFiles` in a build with a hash table, which holds what the replay enters. -/
def rotatedTable : World := ((@applyRecords defaultOpts rotatedLog.flatten).run rotatedFiles).2

theorem rotatedFiles_state : @IndexState noCacheOpts rotatedFiles rotatedLog :=
  (@indexState_iff noCacheOpts _ _ rfl).mpr (by decide +kernel)

theorem rotatedFiles_live (useCache : Bool) : LiveRoots rotatedFiles useCache (logMap rotatedLog.flatten)
    (fun s => rootAt rotatedFiles (logMap rotatedLog.flatten s) s useCache) :=
  liveRoots_log (@IndexState.placed noCacheOpts _ _ rotatedFiles_state).plan (by decide +revert +kernel)

/-- The replay changes the cache only. -/
theorem rotatedTable_holds : ∃ b heads, rotatedTable = rotatedFiles.withCache b heads ∧
    @IndexHolds defaultOpts rotatedTable rotatedLog := by
  have hplaced := @IndexState.placed noCacheOpts _ _ rotatedFiles_state
  have hlog := @IndexState.log noCacheOpts _ _ rotatedFiles_state
  have htable : rotatedFiles.fs.indexHashTableSize = 16 ∧ rotatedFiles.fs.buckets = List.replicate 16 {} := by
    decide +kernel
  have hempty : @CacheIs defaultOpts rotatedFiles.fs (logMap []) :=
    HashIs.congr (@mountedFs_cache defaultOpts 0 smallMount (freshSequence 2 0) rfl) htable.1 htable.2
  obtain ⟨b, heads, hrun, hcache⟩ := @applyRecords_run defaultOpts rotatedFiles [] rotatedLog.flatten hempty
    (by decide) (by rw [htable.1]; decide +kernel)
  have htable : rotatedTable = rotatedFiles.withCache b heads := by rw [rotatedTable, hrun]
  exact ⟨b, heads, htable, htable ▸ @IndexHolds.mk defaultOpts _ _ (hlog.withCache hplaced _ _)
    (hplaced.withCache _ _) hcache⟩

/-- The files that a build without a cache has stored, and one with a hash table reads. -/
theorem backends_agree_rotated :
    (∀ slot, slot ≠ 0 → ((@Windowed.indexHeadForSlot defaultOpts slot).run rotatedTable).1 =
        ((@Windowed.indexHeadForSlot noCacheOpts slot).run rotatedFiles).1) ∧
      (∀ name useCache, ((@Windowed.indexResolve defaultOpts name useCache).run rotatedTable).1 =
        ((@Windowed.indexResolve noCacheOpts name useCache).run rotatedFiles).1) ∧
      ∃ rs rs', @IterReads noCacheOpts rotatedFiles {} rs ∧
        @IterReads defaultOpts rotatedTable {} rs' ∧ rs.Nodup ∧ rs.Perm rs' := by
  obtain ⟨b, heads, htable, hholds⟩ := rotatedTable_holds
  have hsame : SameIndex rotatedFiles rotatedTable := htable ▸ sameIndex_withCache _ _ _
  exact @backends_agree noCacheOpts defaultOpts rotatedFiles rotatedTable rotatedLog _ hsame
    (@IndexHolds.mk noCacheOpts _ _ (@IndexState.log noCacheOpts _ _ rotatedFiles_state)
      (@IndexState.placed noCacheOpts _ _ rotatedFiles_state) trivial)
    hholds rotatedFiles_live

/-- An empty log in a build with a hash table. -/
def emptyTable : World :=
  { logChip [] [] with
    fs := { (logChip [] []).fs with buckets := List.replicate 16 {}, indexHashTableSize := 16 } }

/-- The lookup of slot `0` is an error of the hash table only. -/
theorem backends_differ_slot_zero :
    ¬ ∀ (o o' : Opts) (w w' : World) (logs : List (List IndexRecord)) (root : Bool → Nat → RootMd),
      SameIndex w w' → @IndexHolds o w logs → @IndexHolds o' w' logs →
      (∀ useCache, LiveRoots w useCache (logMap logs.flatten) (root useCache)) →
      ∀ slot < slotCount, ((@Windowed.indexHeadForSlot o' slot).run w').1 =
        ((@Windowed.indexHeadForSlot o slot).run w).1 := by
  intro hall
  have hplaced := logChip_placed [] []
  have hlog : LogOn (logChip [] []) [[], []] := by decide +kernel
  have hlog' : LogOn emptyTable [[], []] := by decide +kernel
  have hplaced' : LogPlaced emptyTable :=
    ⟨⟨hplaced.plan, hplaced.scratch, hplaced.size, hplaced.aligned, hplaced.fits⟩, hplaced.granule_pos,
      hplaced.granule_mod, hplaced.oldest_lt, hplaced.count_pos,
      @activeLast_congr ((logChip [] []).fs) _ _ _ rfl rfl hplaced.last⟩
  have hcache : @CacheIs defaultOpts emptyTable.fs (fun _ => 0) :=
    @CacheIs.congr defaultOpts _ _ _ (@mountedFs_cache defaultOpts 0 smallMount (freshSequence 2 0) rfl) rfl rfl
      rfl
  have hsame := hall fullHeadsOpts defaultOpts (logChip [] []) emptyTable [[], []]
    (fun _ _ => ⟨[], 0, 0, 0, 0, 0, []⟩) ⟨rfl, rfl, fun _ => rfl⟩
    (@IndexHolds.mk fullHeadsOpts _ _ hlog hplaced rfl)
    (@IndexHolds.mk defaultOpts _ _ hlog' hplaced' hcache)
    (fun _ => ⟨fun _ h0 => absurd rfl h0, fun _ _ h0 => absurd rfl h0⟩) 0 (by decide)
  cases hsame

end Fastffs
