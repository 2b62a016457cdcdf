import Fastffs.Handles

/-!
# Allocation respects the owners

Every way `fffs_alloc_next_sector` can take hands out a data sector that no open
writer owns and that is outside the compaction reserve.  On the way reservations
grow, shrink and are given up.

The reservation loop asks the allocation map, not the compaction reserve.  So the
lemmas about a program that may reserve ask that its walks are clear in the end
(`Cleared`).  The trace only grows, so they were clear at every point before.
-/

namespace Fastffs

open Prog

/-! ## Handles of an allocation -/

/-- The fields of a handle that say what it owns. -/
structure Core where
  closed : Bool
  access : Access
  head : Nat
  current : Nat
  spanHead : Nat
  slot : Nat

/-- The fields of a handle that say what it owns. -/
def File.core (file : File) : Core :=
  ⟨file.closed, file.access, file.head, file.current, file.spanHead, file.slot⟩

/-- The handles own what `q` says, and `os` are registered. -/
def Cores (q : Nat → Core) (os : List Nat) (files : Nat → File) (opened : List Nat) : Prop :=
  (∀ k, (files k).core = q k) ∧ opened = os

/-- Two worlds with the same lists and the same geometry. -/
structure SameLists (w w' : World) : Prop where
  openFiles : w'.fs.openFiles = w.fs.openFiles
  compactionReserve : w'.fs.compactionReserve = w.fs.compactionReserve
  indexSectors : w'.fs.indexSectors = w.fs.indexSectors
  sectorCount : w'.fs.sectorCount = w.fs.sectorCount

theorem SameLists.refl (w : World) : SameLists w w := ⟨rfl, rfl, rfl, rfl⟩

theorem SameLists.trans {w w' w'' : World} (h : SameLists w w') (h' : SameLists w' w'') :
    SameLists w w'' :=
  ⟨h'.openFiles.trans h.openFiles, h'.compactionReserve.trans h.compactionReserve,
    h'.indexSectors.trans h.indexSectors, h'.sectorCount.trans h.sectorCount⟩

theorem SameLists.ofOwners {w w' : World} (h : w'.owners = w.owners) : SameLists w w' :=
  ⟨congrArg Owners.openFiles h, congrArg Owners.compactionReserve h,
    congrArg Owners.indexSectors h, congrArg Owners.sectorCount h⟩

theorem File.writing_of_core {f g : File} (h : f.core = g.core) : f.writing ↔ g.writing := by
  simp only [File.core, Core.mk.injEq] at h
  simp only [File.writing, h]

theorem File.owns_of_core {f g : File} (h : f.core = g.core) (s : Nat) : f.owns s ↔ g.owns s := by
  have hw := File.writing_of_core h
  simp only [File.core, Core.mk.injEq] at h
  simp only [File.owns, hw, h]

variable {h : Nat} {hs : List Nat} {c : Prop} {q : Nat → Core} {os : List Nat} {s : Nat}
  {w w' : World} {g : File → File}

/-- Change one handle. -/
def World.setFile (w : World) (h : Nat) (g : File → File) : World :=
  { w with files := fun k => if k = h then g (w.files k) else w.files k }

theorem World.setFile_files (w : World) (h : Nat) (g : File → File) (k : Nat) :
    (w.setFile h g).files k = if k = h then g (w.files k) else w.files k := rfl

theorem run_modifyFile_eq (w : World) (h : Nat) (g : File → File) :
    (modifyFile h g).run w = (.ok (), w.setFile h g) := rfl

/-- Nothing a handle owns changes. -/
theorem setFile_core (hcore : (g (w.files h)).core = (w.files h).core) (k : Nat) :
    ((w.setFile h g).files k).core = (w.files k).core := by
  rw [World.setFile_files]
  split
  · next hk => rw [hk]; exact hcore
  · rfl

/-- A handle may come to own a free sector, and it may change its reservation to
a sound one. -/
theorem Excl.change {P P' : (Nat → File) → List Nat → Prop} (he : Excl hs c P w)
    (hown : ∀ t, (g (w.files h)).owns t → (w.files h).owns t ∨ (¬ c ∧ w.owners.Free t))
    (hres : (w.setFile h g).owners.Reserved (hs ++ w.fs.openFiles))
    (hP : P' (w.setFile h g).files w.fs.openFiles) : Excl hs c P' (w.setFile h g) := by
  have hcase : ∀ k t, ((w.setFile h g).files k).owns t →
      (w.files k).owns t ∨ (k = h ∧ ¬ c ∧ w.owners.Free t) := by
    intro k t
    rw [World.setFile_files]
    split
    · next hk =>
      subst hk
      exact fun ho => (hown t ho).imp id fun h => ⟨rfl, h⟩
    · exact .inl
  exact {
    indexSectors_pos := he.indexSectors_pos
    sectorCount_le := he.sectorCount_le
    nodup := he.nodup
    owned_data := fun k hk t ho => (hcase k t ho).elim (he.owned_data k hk t) fun h => h.2.2.data
    owned_disjoint := by
      intro k hk l hl hkl t ho ho'
      rcases hcase k t ho with h1 | ⟨rfl, -, hfree⟩ <;> rcases hcase l t ho' with h2 | ⟨rfl, -, h2⟩
      · exact he.owned_disjoint k hk l hl hkl t h1 h2
      · exact h2.unowned k hk h1
      · exact hfree.unowned l hl h2
      · exact hkl rfl
    reserve_nodup := he.reserve_nodup
    reserve_data := he.reserve_data
    reserve_unowned := fun t ht k hk ho => (hcase k t ho).elim (he.reserve_unowned t ht k hk)
      fun h => h.2.2.notReserve ht
    reserved := hres
    candidates := by
      intro hc x hx h0
      have hf := he.candidates hc x hx h0
      refine ⟨hf.data, hf.notReserve, fun k hk ho => ?_⟩
      rcases hcase k x.sector ho with h1 | ⟨-, hnc, hfree⟩
      · exact hf.unowned k hk h1
      · have hdata : w.fs.indexSectors ≤ x.sector ∧ x.sector < w.fs.sectorCount := hfree.data
        exact hc.elim hnc fun (hle : w.fs.sectorCount ≤ w.fs.indexSectors) => by omega
    events := he.events
    handles := hP }

/-- A handle that keeps what it owns may change its reservation to a sound one. -/
theorem Excl.setFile (he : Excl hs c (Cores q os) w)
    (hcore : (g (w.files h)).core = (w.files h).core)
    (hres : (w.setFile h g).owners.Reserved (hs ++ w.fs.openFiles)) :
    Excl hs c (Cores q os) (w.setFile h g) :=
  he.change (fun t ho => .inl ((File.owns_of_core hcore t).mp ho)) hres
    ⟨fun k => (setFile_core hcore k).trans (he.handles.1 k), he.handles.2⟩

/-- A reservation may shrink. -/
theorem Owners.Reserved.shrink (hr : w.owners.Reserved hs)
    (hsub : ∀ s, (g (w.files h)).reserves s → (w.files h).reserves s) :
    (w.setFile h g).owners.Reserved hs := by
  have hsub' : ∀ k s, ((w.setFile h g).files k).reserves s → (w.files k).reserves s := by
    intro k s
    rw [World.setFile_files]
    split
    · next hk => rw [hk]; exact hsub s
    · exact id
  exact ⟨fun k hk s hs => hr.data k hk s (hsub' k s hs),
    fun k hk l hl hkl s hs hs' => hr.disjoint k hk l hl hkl s (hsub' k s hs) (hsub' l s hs'),
    fun k hk s hs => hr.compaction k hk s (hsub' k s hs)⟩

/-- A handle that keeps what it owns and reserves no new sector. -/
theorem Excl.setFileShrink (he : Excl hs c (Cores q os) w)
    (hcore : (g (w.files h)).core = (w.files h).core)
    (hsub : ∀ s, (g (w.files h)).reserves s → (w.files h).reserves s) :
    Excl hs c (Cores q os) (w.setFile h g) :=
  he.setFile hcore (he.reserved.shrink hsub)

/-- A weaker promise about the candidates. -/
theorem Excl.weaken {P : (Nat → File) → List Nat → Prop} {c' : Prop} (he : Excl hs c P w)
    (hc : c' → c) : Excl hs c' P w :=
  { he with candidates := fun h => he.candidates (h.imp hc id) }

theorem Excl.mono {P P' : (Nat → File) → List Nat → Prop} (he : Excl hs c P w)
    (hP : ∀ f l, P f l → P' f l) : Excl hs c P' w :=
  { he with handles := hP _ _ he.handles }

/-- A free sector stays free while the handles own the same. -/
theorem Excl.free_of_same {c' : Prop} (he : Excl hs c (Cores q os) w)
    (he' : Excl hs c' (Cores q os) w') (hfree : w.owners.Free s) (hsame : SameLists w w') :
    w'.owners.Free s where
  data := by
    have h := hfree.data
    simp only [Owners.isData, World.owners, ownersOf, hsame.indexSectors, hsame.sectorCount]
    exact h
  notReserve := fun h => hfree.notReserve (by
    have h' : s ∈ w'.fs.compactionReserve := h
    rw [hsame.compactionReserve] at h'
    exact h')
  unowned := by
    intro k hk ho
    have hk' : k ∈ w.fs.openFiles := by
      rw [← hsame.openFiles]
      exact hk
    have hcore : (w'.files k).core = (w.files k).core :=
      (he'.handles.1 k).trans (he.handles.1 k).symm
    exact hfree.unowned k hk' ((File.owns_of_core hcore s).mp ho)

theorem Excl.writing (he : Excl hs c (Cores q os) w)
    (hq : (q h).closed = false ∧ (q h).access = .wronly) : (w.files h).writing := by
  have h := he.handles.1 h
  rw [← h] at hq
  exact hq

/-- A sector number of a reservation fits in 16 bits. -/
theorem Excl.u16_reserved {P : (Nat → File) → List Nat → Prop} (he : Excl hs c P w)
    (hmem : h ∈ hs ++ w.fs.openFiles) (hr : (w.files h).reserves s) : u16 s = s := by
  have hdata := he.reserved.data h hmem s hr
  have hle := he.sectorCount_le
  have hlt : s < w.fs.sectorCount := hdata.2
  simp only [uint16Max] at hle
  exact u16_of_lt (by omega)

/-- The end of a reservation fits in 16 bits. -/
theorem Excl.u16_reserveEnd {P : (Nat → File) → List Nat → Prop} (he : Excl hs c P w)
    (hmem : h ∈ hs ++ w.fs.openFiles) (hwr : (w.files h).writing)
    (h0 : (w.files h).reserveCount ≠ 0) :
    u16 ((w.files h).reserveFirst + (w.files h).reserveCount) =
      (w.files h).reserveFirst + (w.files h).reserveCount := by
  have hlast : (w.files h).reserves
      ((w.files h).reserveFirst + ((w.files h).reserveCount - 1)) :=
    ⟨hwr, by omega, by omega⟩
  have hlt : _ < w.fs.sectorCount := (he.reserved.data h hmem _ hlast).2
  have hle := he.sectorCount_le
  simp only [uint16Max] at hle
  exact u16_of_lt (by omega)

/-! ## Clear walks -/

variable [Opts]

/-- Every walk of `reserve_after` so far was clear. -/
def Cleared (w : World) : Prop := ∀ e ∈ w.trace, e.Clear

/-- The trace has grown from `t`. -/
def Since (t : List Event) (w : World) : Prop := 0 < w.fs.indexSectors ∧ t <:+ w.trace

section Since

variable {t : List Event}

omit [Opts] in
instance : HandleInv (Since t) where
  indexSectors_pos hw := hw.1
  ofSame hsame hw := ⟨hsame.indexSectors ▸ hw.1, hsame.trace ▸ hw.2⟩
  noteSector _ hw := ⟨hw.1, hw.2.trans (List.suffix_cons _ _)⟩

omit [Opts] in
instance (act : Act) : Keeps (Since t) (note act) :=
  ⟨fun _ hw => ⟨hw.1, hw.2.trans (List.suffix_cons _ _)⟩⟩

omit [Opts] in
instance : NarrowInv (Since t) := ⟨fun hw => ⟨hw.1, hw.2.trans (List.suffix_cons _ _)⟩⟩

omit [Opts] in
instance (g : File → File) : Keeps (Since t) (modifyFile h g) := ⟨fun _ hw => hw⟩

omit [Opts] in
/-- The trace grows in every window. -/
theorem AllocWindows.since : AllocWindows (Since t) h (fun _ _ => True) fun _ => True where
  found _ _ := ⟨Keeps.keeps, fun _ _ _ _ => trivial⟩
  blank := ⟨fun _ hw => hw, fun _ _ _ _ => ⟨inferInstance, trivial⟩⟩
  taken _ _ _ _ := ⟨fun _ hw => hw, fun _ _ _ _ => trivial⟩

instance (dataOff recordOff : Nat) (footer : Bool) :
    Keeps (Since t) (useAllocWindow h s dataOff recordOff footer) :=
  (useAllocWindow_gives AllocWindows.since trivial footer).toKeeps

instance : Keeps (Since t) (useBlankSector h s) := (useBlankSector_gives AllocWindows.since).toKeeps

instance : Keeps (Since t) (tryReservedSector h) := (tryReservedSector_gives AllocWindows.since).toKeeps

instance (skip : Option Nat) : Keeps (Since t) (allocSectorOnce h skip) :=
  (allocSectorOnce_gives AllocWindows.since).toKeeps

instance (skip : Option Nat) : Keeps (Since t) (allocAfterHalving h skip) := by
  unfold allocAfterHalving; infer_instance

instance : Keeps (Since t) (allocateErasedGcSector h) :=
  (allocateErasedGcSector_gives AllocWindows.since).toKeeps

instance : Keeps (Since t) (tryCompactionReserveForAlloc h) :=
  (tryCompactionReserveForAlloc_gives AllocWindows.since).toKeeps

instance : Keeps (Since t) (allocRelaxedCompaction h) :=
  (allocRelaxedCompaction_gives AllocWindows.since).toKeeps

instance (skip : Option Nat) : Keeps (Since t) (allocUnreserved h skip) :=
  (allocUnreserved_gives AllocWindows.since skip).toKeeps

instance : Keeps (Since t) (allocNextSector h) := (allocNextSector_gives AllocWindows.since).toKeeps

end Since

variable {α β : Type}

/-- What is clear after a program was clear before it. -/
theorem Cleared.before {x : M α} [hx : ∀ t, Keeps (Since t) x] (hpos : 0 < w.fs.indexSectors)
    (hc : Cleared (x.run w).2) : Cleared w :=
  fun e he => hc e (((hx w.trace).keeps w ⟨hpos, List.suffix_refl _⟩).2.subset he)

/-- What is clear after two programs was clear after the first. -/
theorem Cleared.first {x : M α} {f : α → M β} [hx : ∀ t, Keeps (Since t) x]
    (hpos : 0 < w.fs.indexSectors) (hf : ∀ a t, Keeps (Since t) (f a))
    (hc : Cleared ((x >>= f).run w).2) : Cleared (x.run w).2 := by
  have hpos' := ((hx w.trace).keeps w ⟨hpos, List.suffix_refl _⟩).1
  rw [run_bind] at hc
  rcases hrun : x.run w with ⟨r, w1⟩
  rw [hrun] at hc hpos'
  cases r with
  | error e => exact hc
  | ok a =>
    have hrest := hf a
    exact hc.before hpos'

/-! ## Releasing -/

/-- Clearing the bits of a range. -/
theorem allocMapMarkRangeUnknown_excl {P : (Nat → File) → List Nat → Prop} (first count : Nat)
    (he : Excl hs c P w) :
    ∃ w', (allocMapMarkRangeUnknown first count).run w = (.ok (), w') ∧ Excl hs c P w' ∧
      w'.owners = w.owners := by
  induction count generalizing first w with
  | zero => exact ⟨w, rfl, he, rfl⟩
  | succ count ih =>
    obtain ⟨w', hrun, he', hown'⟩ := ih (first + 1) (he.mark (u16 first) false)
    refine ⟨w', ?_, he', hown'.trans (owners_allocMapMark (w := w) (u16 first) false)⟩
    simp only [allocMapMarkRangeUnknown, allocMapMarkUnknown, run_bind, run_modifyFs]
    exact hrun

instance {P : (Nat → File) → List Nat → Prop} (first count : Nat) :
    Keeps (Excl hs c P) (allocMapMarkRangeUnknown first count) := by
  constructor
  intro w he
  obtain ⟨w', hrun, he', -⟩ := allocMapMarkRangeUnknown_excl first count he
  rw [hrun]
  exact he'

/-- Giving up a reservation. -/
theorem allocReleaseReservation_excl (he : Excl hs c (Cores q os) w) :
    ∃ w', (allocReleaseReservation h).run w = (.ok (), w') ∧ Excl hs c (Cores q os) w' ∧
      (w'.files h).reserveCount = 0 ∧ SameLists w w' := by
  unfold allocReleaseReservation
  simp only [run_bind, run_getFile]
  split
  · next h0 => exact ⟨w, rfl, he, h0, .refl w⟩
  · next h0 =>
    obtain ⟨w1, hrun, he1, hown⟩ := allocMapMarkRangeUnknown_excl
      (w.files h).reserveFirst (w.files h).reserveCount he
    refine ⟨w1.setFile h fun f => { f with reserveFirst := 0, reserveCount := 0 }, ?_, ?_, ?_, ?_⟩
    · simp only [run_bind, hrun, run_modifyFile]
      rfl
    · refine he1.setFileShrink rfl ?_
      intro s hr
      have h1 := hr.2.2
      simp at h1
    · rw [World.setFile_files, if_pos rfl]
    · exact (SameLists.ofOwners hown).trans ⟨rfl, rfl, rfl, rfl⟩

/-- Halving the reservations of some open files. -/
theorem halveLoop_excl (list : List Nat) {b : Bool} (he : Excl hs c (Cores q os) w) :
    ∃ b' w', (halveLoop list b).run w = (.ok b', w') ∧ Excl hs c (Cores q os) w' ∧
      ∀ k, (w.files k).reserveCount = 0 → (w'.files k).reserveCount = 0 := by
  induction list generalizing b w with
  | nil => exact ⟨b, w, rfl, he, fun _ h0 => h0⟩
  | cons k rest ih =>
    unfold halveLoop
    simp only [run_bind, run_getFile]
    split
    · exact ih he
    · next hskip =>
      simp only [not_or, Bool.not_eq_true, ne_eq, not_not] at hskip
      obtain ⟨hclosed, haccess, h0⟩ := hskip
      have hwr : (w.files k).writing := ⟨hclosed, haccess⟩
      obtain ⟨w1, hrun, he1, hown⟩ := allocMapMarkRangeUnknown_excl
        (u16 ((w.files k).reserveFirst + (w.files k).reserveCount / 2))
        ((w.files k).reserveCount - (w.files k).reserveCount / 2) he
      have hfiles : w1.files = w.files := congrArg Owners.files hown
      simp only [run_bind, hrun, run_modifyFile]
      have he2 : Excl hs c (Cores q os) (w1.setFile k fun f =>
          { f with reserveCount := (w.files k).reserveCount / 2
                   reserveFirst := if (w.files k).reserveCount / 2 = 0 then 0
                     else f.reserveFirst }) := by
        refine he1.setFileShrink rfl ?_
        intro s hr
        rw [hfiles] at hr ⊢
        refine ⟨hwr, ?_⟩
        have h1 := hr.2.1
        have h2 := hr.2.2
        dsimp only at h1 h2
        split at h1 <;> split at h2 <;> omega
      obtain ⟨b', w', hrun', he', hzero⟩ := ih (b := true) he2
      refine ⟨b', w', hrun', he', ?_⟩
      intro l hl
      apply hzero
      rw [World.setFile_files, hfiles]
      split
      · next hlk => exact absurd (hlk ▸ hl) h0
      · exact hl

/-! ## Reserving -/

omit [Opts] in
/-- A sector that is not reserved by another handle. -/
theorem not_reserves_of_sectorReservedByOther {P : (Nat → File) → List Nat → Prop}
    (he : Excl hs c P w) (hother : sectorReservedByOther w h s = false) :
    ∀ k ∈ w.fs.openFiles, k ≠ h → ¬ (w.files k).reserves s := by
  intro k hk hne hr
  have hmem : k ∈ hs ++ w.fs.openFiles := List.mem_append_right _ hk
  have h0 : (w.files k).reserveCount ≠ 0 := by
    have h1 := hr.2.1
    have h2 := hr.2.2
    omega
  have hend := he.u16_reserveEnd hmem hr.1 h0
  rw [sectorReservedByOther, List.any_eq_false] at hother
  apply hother k hk
  simp only [sectorInReservation, hend, Bool.and_eq_true, bne_iff_ne, Bool.not_eq_true',
    beq_iff_eq, decide_eq_true_eq]
  exact ⟨⟨⟨hne, hr.1.1⟩, hr.1.2⟩, ⟨h0, hr.2.1⟩, hr.2.2⟩

/-- The handle after it has reserved one more sector. -/
def File.reserveOne (file : File) (next : Nat) : File :=
  { file with reserveFirst := if file.reserveCount = 0 then next else file.reserveFirst
              reserveCount := file.reserveCount + 1 }

/-- A sector that passes the checks of the source may be reserved.  This is where
the walk has to be clear. -/
theorem Excl.reserveOne {next : Nat} (he : Excl [h] c (Cores q os) w)
    (hcan : sectorCanBeReserved w h next = true)
    (hclear : next ∈ w.fs.compactionReserve → allocMapMaybeUsed w.fs next = true)
    (hnext : (w.files h).reserveCount = 0 ∨
      next = (w.files h).reserveFirst + (w.files h).reserveCount) :
    Excl [h] c (Cores q os) (w.setFile h (·.reserveOne next)) := by
  simp only [sectorCanBeReserved, Bool.and_eq_true, Bool.not_eq_true'] at hcan
  obtain ⟨⟨⟨hdata, hmap⟩, -⟩, hother⟩ := hcan
  have hothers := not_reserves_of_sectorReservedByOther he hother
  have hout : next ∉ w.fs.compactionReserve := by
    intro hmem
    rw [hclear hmem] at hmap
    cases hmap
  have hnew : ∀ s, ((w.files h).reserveOne next).reserves s →
      s = next ∨ (w.files h).reserves s := by
    intro s hr
    have h1 := hr.2.1
    have h2 := hr.2.2
    simp only [File.reserveOne] at h1 h2
    rcases hnext with h0 | h0
    · simp only [h0, if_true] at h1 h2
      exact .inl (by omega)
    · split at h1 <;> split at h2
      · exact .inl (by omega)
      · omega
      · omega
      · by_cases heq : s = next
        · exact .inl heq
        · exact .inr ⟨hr.1, h1, by omega⟩
  have hcase : ∀ k s, ((w.setFile h (·.reserveOne next)).files k).reserves s →
      (k = h ∧ s = next) ∨ (w.files k).reserves s := by
    intro k s hr
    rw [World.setFile_files] at hr
    split at hr
    · next hk =>
      subst hk
      exact (hnew s hr).imp (fun hs => ⟨rfl, hs⟩) id
    · exact .inr hr
  have hmem : ∀ k ∈ [h] ++ w.fs.openFiles, k ≠ h → k ∈ w.fs.openFiles := by
    intro k hk hne
    simp only [List.cons_append, List.nil_append, List.mem_cons] at hk
    exact hk.resolve_left hne
  refine he.setFile rfl ⟨?_, ?_, ?_⟩
  · intro k hk s hr
    rcases hcase k s hr with ⟨-, rfl⟩ | hr
    · exact validDataSector_iff.mp hdata
    · exact he.reserved.data k hk s hr
  · intro k hk l hl hkl s hr hr'
    rcases hcase k s hr with ⟨rfl, rfl⟩ | hr1 <;> rcases hcase l s hr' with ⟨rfl, h2⟩ | hr2
    · exact hkl rfl
    · exact hothers l (hmem l hl fun h => hkl h.symm) (fun h => hkl h.symm) hr2
    · subst h2
      exact hothers k (hmem k hk hkl) hkl hr1
    · exact he.reserved.disjoint k hk l hl hkl s hr1 hr2
  · intro k hk s hr
    rcases hcase k s hr with ⟨-, rfl⟩ | hr
    · exact hout
    · exact he.reserved.compaction k hk s hr

/-- The loop that reserves the sectors after an allocated one. -/
theorem reserveAfterLoop_excl {n : Nat} (next : Nat) (he : Excl [h] c (Cores q os) w)
    (hnext : (w.files h).reserveCount = 0 ∨
      next = (w.files h).reserveFirst + (w.files h).reserveCount)
    (hclear : Cleared ((reserveAfterLoop h n next).run w).2) :
    ∃ w', (reserveAfterLoop h n next).run w = (.ok (), w') ∧
      Excl [h] c (Cores q os) w' ∧ SameLists w w' := by
  induction n generalizing next w with
  | zero => exact ⟨w, rfl, he, .refl w⟩
  | succ n ih =>
    unfold reserveAfterLoop at hclear ⊢
    simp only [run_bind, run_get] at hclear ⊢
    split at hclear
    · next hif =>
      rw [if_pos hif]
      simp only [run_bind, run_note] at hclear ⊢
      have he1 := he.note (a := .reserve next) ⟨he.reservedOpen, trivial⟩
      split at hclear
      · next hcan =>
        rw [if_pos hcan]
        simp only [run_bind, run_modifyFile, allocMapMarkUsed, run_modifyFs] at hclear ⊢
        let w1 : World := { w with trace := ⟨.reserve next, w.fs, w.files⟩ :: w.trace }
        have hown := owners_allocMapMark (w := w1.setFile h (·.reserveOne next)) next true
        have hidx : (allocMapMark next true w.fs).indexSectors = w.fs.indexSectors :=
          congrArg Owners.indexSectors hown
        -- the walk has noted this sector before it goes on
        have hwalk := hclear.before (lt_of_lt_of_eq he.indexSectors_pos hidx.symm)
          ⟨.reserve next, w.fs, w.files⟩ List.mem_cons_self
        have he3 := (he1.reserveOne hcan hwalk hnext).mark next true
        have hle := he.sectorCount_le
        simp only [uint16Max] at hle
        have hu : u16 (next + 1) = next + 1 := u16_of_lt (by omega)
        have hgrown : ((w.files h).reserveOne next).reserveCount = 0 ∨
            u16 (next + 1) = ((w.files h).reserveOne next).reserveFirst +
              ((w.files h).reserveOne next).reserveCount := by
          right
          rw [hu]
          simp only [File.reserveOne]
          rcases hnext with h0 | h0
          · simp [h0]
          · split
            · omega
            · omega
        obtain ⟨w', hrun, he', hres⟩ := ih (u16 (next + 1)) he3 (by
          simp only [World.setFile_files, if_true]
          exact hgrown) hclear
        have hsame : SameLists w (w1.setFile h (·.reserveOne next)) := ⟨rfl, rfl, rfl, rfl⟩
        exact ⟨w', hrun, he', (hsame.trans (.ofOwners hown)).trans hres⟩
      · next hcan =>
        rw [if_neg hcan]
        exact ⟨_, rfl, he1, ⟨rfl, rfl, rfl, rfl⟩⟩
    · next hif =>
      rw [if_neg hif]
      exact ⟨w, rfl, he, .refl w⟩

theorem reserveAfter_excl (sector : Nat) (he : Excl [h] c (Cores q os) w)
    (hwr : (w.files h).writing) (hclear : Cleared ((reserveAfter h sector).run w).2) :
    ∃ w', (reserveAfter h sector).run w = (.ok (), w') ∧ Excl [h] c (Cores q os) w' ∧
      SameLists w w' := by
  unfold reserveAfter at hclear ⊢
  simp only [run_bind, run_getFile] at hclear ⊢
  refine reserveAfterLoop_excl _ he ?_ hclear
  by_cases h0 : (w.files h).reserveCount = 0
  · exact .inl h0
  · rw [if_pos h0, he.u16_reserveEnd (by simp) hwr h0]
    exact .inr rfl

/-! ## Allocating -/

/-- From `w` the program allocates for the handle `h`.  If its walks are clear, it keeps
the invariant, what it returns is free, and if it stops for lack of space the candidates
are free as far as `c` says. -/
def HandsFrom (h : Nat) (q : Nat → Core) (os : List Nat) (w : World) (c : Prop) (x : M Nat) : Prop :=
  Cleared (x.run w).2 →
    Excl [h] ((x.run w).1 = .error .noSpace ∧ c) (Cores q os) (x.run w).2 ∧
      ∀ s, (x.run w).1 = .ok s → (x.run w).2.owners.Free s

/-- The program allocates from every world of the invariant. -/
def Hands (h : Nat) (q : Nat → Core) (os : List Nat) (c c' : Prop) (x : M Nat) : Prop :=
  ∀ w, Excl [h] c (Cores q os) w → HandsFrom h q os w c' x

omit [Opts] in
instance {I : World → Prop} {x y : M Nat} [Keeps I x] [Keeps I y] : Keeps I (ifNoSpace x y) := by
  unfold Fastffs.ifNoSpace
  refine Keeps.bind (k := fun r => ?_)
  split <;> infer_instance

/-- One way to allocate after the other. -/
theorem HandsFrom.ifNoSpace {c1 c2 : Prop} {x y : M Nat} [∀ t, Keeps (Since t) x] [∀ t, Keeps (Since t) y]
    (hpos : 0 < w.fs.indexSectors) (hx : HandsFrom h q os w c1 x)
    (hy : Hands h q os c1 c2 y) : HandsFrom h q os w c2 (ifNoSpace x y) := by
  simp only [HandsFrom, Fastffs.ifNoSpace]
  intro hclear
  obtain ⟨he1, hfree⟩ := hx (Cleared.first (x := attempt x) hpos
    (fun r t => by split <;> infer_instance) hclear)
  revert hclear
  simp only [run_bind, run_attempt]
  split
  · next s hr =>
    refine fun _ => ⟨he1.weaken fun hc => by simp at hc, ?_⟩
    intro t ht
    simp only [run_pure, Except.ok.injEq] at ht
    exact ht ▸ hfree s hr
  · next hr => exact hy _ (he1.weaken fun hc => ⟨hr, hc⟩)
  · next e hne hr =>
    refine fun _ => ⟨he1.weaken fun hc => ?_, fun t ht => by simp at ht⟩
    simp only [run_throw, Except.error.injEq] at hc
    exact absurd hc.1 hne

/-- Taking a window of a free sector. -/
theorem useAllocWindow_excl (dataOff recordOff : Nat) (footer : Bool)
    (he : Excl [h] c (Cores q os) w) (hq : (q h).closed = false ∧ (q h).access = .wronly)
    (hfree : w.owners.Free s) (hclear : Cleared ((useAllocWindow h s dataOff recordOff footer).run w).2) :
    ∃ w', (useAllocWindow h s dataOff recordOff footer).run w = (.ok (), w') ∧
      Excl [h] c (Cores q os) w' ∧ w'.owners.Free s ∧ SameLists w w' := by
  have he1 : Excl [h] c (Cores q os) (w.setFile h fun f =>
      { f with dataOffset := dataOff, currentWriteOffset := dataOff
               currentMetadataOffset := recordOff, currentNeedsFooter := footer }) :=
    he.setFileShrink rfl fun _ hr => hr
  have hsame1 : SameLists w (w.setFile h fun f =>
      { f with dataOffset := dataOff, currentWriteOffset := dataOff
               currentMetadataOffset := recordOff, currentNeedsFooter := footer }) :=
    ⟨rfl, rfl, rfl, rfl⟩
  simp only [useAllocWindow, run_bind, run_modifyFile] at hclear ⊢
  cases footer with
  | false => exact ⟨_, rfl, he1, he.free_of_same he1 hfree hsame1, hsame1⟩
  | true =>
    obtain ⟨w', hrun, he', hsame⟩ := reserveAfter_excl s he1 (he1.writing hq) hclear
    exact ⟨w', hrun, he', he.free_of_same he' hfree (hsame1.trans hsame), hsame1.trans hsame⟩

/-- Taking a blank sector that is free. -/
theorem useBlankSector_hands (he : Excl [h] c (Cores q os) w)
    (hq : (q h).closed = false ∧ (q h).access = .wronly) (hfree : w.owners.Free s)
    (hclear : Cleared ((useBlankSector h s).run w).2) :
    ∃ w', (useBlankSector h s).run w = (.ok s, w') ∧ Excl [h] c (Cores q os) w' ∧
      w'.owners.Free s := by
  have he1 : Excl [h] c (Cores q os) { w with trace := ⟨.narrow
      [w.fs.sectorSize - sectorFooterSize - mdFileRecordSize], w.fs, w.files⟩ :: w.trace } :=
    NarrowInv.narrow he
  obtain ⟨w', hrun, he', hfree', -⟩ := useAllocWindow_excl 0
    (u16 (w.fs.sectorSize - sectorFooterSize - mdFileRecordSize)) true he1 hq hfree
    (Cleared.first (f := fun _ => pure s) he1.indexSectors_pos (fun _ _ => inferInstance) hclear)
  refine ⟨w', ?_, he', hfree'⟩
  simp only [useBlankSector, run_bind, run_getFs, run_note, hrun, run_pure]

/-- A program that finds a free sector, and then takes it as a blank one. -/
theorem Hands.useBlank {c1 : Prop} {x : M Nat}
    (hq : (q h).closed = false ∧ (q h).access = .wronly)
    (hx : ∀ w, Excl [h] c (Cores q os) w →
      Excl [h] c1 (Cores q os) (x.run w).2 ∧
        ∀ s, (x.run w).1 = .ok s → (x.run w).2.owners.Free s) :
    Hands h q os c c1 (do let s ← x; useBlankSector h s) := by
  intro w he
  obtain ⟨he1, hfree⟩ := hx w he
  simp only [HandsFrom, run_bind]
  rcases hr : x.run w with ⟨r, w1⟩
  rw [hr] at he1 hfree
  cases r with
  | error e => exact fun _ => ⟨he1.weaken fun hc => hc.2, fun s hs => by simp at hs⟩
  | ok s =>
    intro hclear
    obtain ⟨w2, hrun, he2, hfree2⟩ := useBlankSector_hands he1 hq (hfree s rfl) hclear
    simp only [hrun]
    refine ⟨he2.weaken fun hc => by simp at hc, ?_⟩
    intro t ht
    simp only [Except.ok.injEq] at ht
    exact ht ▸ hfree2

theorem allocateErasedGcSector_hands (hq : (q h).closed = false ∧ (q h).access = .wronly) :
    Hands h q os c True (allocateErasedGcSector h) :=
  Hands.useBlank hq fun _ he => gcUntilErased_free he

theorem allocRelaxedCompaction_hands (hq : (q h).closed = false ∧ (q h).access = .wronly) :
    Hands h q os True True (allocRelaxedCompaction h) :=
  Hands.useBlank hq fun _ he => gcCompactUntilErased_free he

/-- Giving a sector of the compaction reserve to a writer. -/
theorem tryCompactionReserveLoop_hands (list : List Nat)
    (hq : (q h).closed = false ∧ (q h).access = .wronly)
    (he : Excl [h] c (Cores q os) w) (hsub : ∀ s ∈ list, s ∈ w.fs.compactionReserve) :
    let r := (tryCompactionReserveLoop h list).run w
    Cleared r.2 → Excl [h] c (Cores q os) r.2 ∧ ∀ s, r.1 = .ok s → r.2.owners.Free s := by
  induction list generalizing w with
  | nil => exact fun _ => ⟨he, fun s hs => by simp [tryCompactionReserveLoop] at hs⟩
  | cons t rest ih =>
    unfold tryCompactionReserveLoop
    simp only [run_bind, run_getFile, run_attempt]
    obtain ⟨he1, hown⟩ := keeps_owners (I := Excl [h] c (Cores q os))
      (x := findSectorFreeWindow t allocMinUsableFree (w.files h).slot true) he
    generalize hw1 : ((findSectorFreeWindow t allocMinUsableFree (w.files h).slot true).run w).2 = w1
    rw [hw1] at he1 hown
    have hsub1 : ∀ s ∈ t :: rest, s ∈ w1.fs.compactionReserve := by
      rw [(SameLists.ofOwners hown).compactionReserve]
      exact hsub
    have hrest := ih he1 fun s hs => hsub1 s (List.mem_cons_of_mem _ hs)
    split
    · exact hrest
    · exact fun _ => ⟨he1, fun s hs => by simp at hs⟩
    · next win hr =>
      split
      · exact hrest
      · intro hclear
        have hat := (he1.reserveRemove (hsub1 t List.mem_cons_self)).mark t false
        simp only [allocCompactionReserveRemove, allocMapMarkUnknown, run_bind, run_modifyFs] at hclear ⊢
        obtain ⟨w3, hrun, he3, hfree3, -⟩ := useAllocWindow_excl win.dataOff
          win.recordOff win.needsFooter hat.toExcl hq hat.free
          (Cleared.first (f := fun _ => do modifyFs fun fs => { fs with allocCursor := t }; pure t)
            hat.indexSectors_pos (fun _ _ => inferInstance) hclear)
        simp only [hrun, run_pure, Except.ok.injEq]
        refine ⟨FrameInv.ofView (w := w3) rfl he3, ?_⟩
        rintro s rfl
        exact hfree3

theorem tryCompactionReserveForAlloc_hands (hq : (q h).closed = false ∧ (q h).access = .wronly) :
    Hands h q os c c (tryCompactionReserveForAlloc h) := by
  intro w he hclear
  have hr := tryCompactionReserveLoop_hands w.fs.compactionReserve hq he (fun _ hs => hs) hclear
  exact ⟨hr.1.weaken fun hc => hc.2, hr.2⟩

/-! ## The scan of the data sectors -/

omit [Opts] in
/-- Adding a free sector to the compaction reserve. -/
theorem Excl.reserveAdd {P : (Nat → File) → List Nat → Prop} (he : Excl [h] False P w)
    (hfree : w.owners.Free s)
    (hres : ∀ k ∈ [h] ++ w.fs.openFiles, ¬ (w.files k).reserves s) :
    Excl [h] False P { w with fs := { w.fs with compactionReserve := w.fs.compactionReserve ++ [s] } } := by
  have hdata : w.fs.indexSectors ≤ s ∧ s < w.fs.sectorCount := hfree.data
  have hmem : ∀ t, t ∈ w.fs.compactionReserve ++ [s] → t ∈ w.fs.compactionReserve ∨ t = s := by
    intro t ht
    simpa using ht
  exact {
    indexSectors_pos := he.indexSectors_pos
    sectorCount_le := he.sectorCount_le
    nodup := he.nodup
    owned_data := he.owned_data
    owned_disjoint := he.owned_disjoint
    reserve_nodup := List.Nodup.append he.reserve_nodup (by simp) (by
      intro t ht hts
      simp only [List.mem_singleton] at hts
      exact hfree.notReserve (hts ▸ ht))
    reserve_data := fun t ht => (hmem t ht).elim (he.reserve_data t) fun h => h ▸ hdata
    reserve_unowned := fun t ht =>
      (hmem t ht).elim (he.reserve_unowned t) fun h => h ▸ hfree.unowned
    reserved := ⟨he.reserved.data, he.reserved.disjoint, fun k hk t hr ht =>
      (hmem t ht).elim (he.reserved.compaction k hk t hr) fun h => hres k hk (h ▸ hr)⟩
    candidates := fun hc => absurd (hc.resolve_left id) (by simp only; omega)
    events := he.events
    handles := he.handles }

/-- The scan hands out a free sector, or it fills the compaction reserve. -/
theorem allocSectorLoop_hands {skip : Option Nat} {n t : Nat}
    (hq : (q h).closed = false ∧ (q h).access = .wronly)
    (he : Excl [h] False (Cores q os) w) (h0 : (w.files h).reserveCount = 0)
    (hdata : n ≠ 0 → w.owners.isData t) :
    let r := (allocSectorLoop h skip n t).run w
    Cleared r.2 → Excl [h] False (Cores q os) r.2 ∧ (∀ s, r.1 = .ok s → r.2.owners.Free s) ∧
      (r.1 = .error .noSpace → (r.2.files h).reserveCount = 0) := by
  induction n generalizing t w with
  | zero => exact fun _ => ⟨he, fun s hs => by simp [allocSectorLoop] at hs, fun _ => h0⟩
  | succ n ih =>
    have hdata := hdata (by omega)
    have hnext : ∀ {w1 : World}, w1.fs.indexSectors = w.fs.indexSectors →
        w1.fs.sectorCount = w.fs.sectorCount → w1.owners.isData (nextDataSector w.fs t) := by
      intro w1 hidx hcount
      have h1 : w.fs.indexSectors ≤ t ∧ t < w.fs.sectorCount := hdata
      simp only [Owners.isData, World.owners, ownersOf, hidx, hcount, nextDataSector]
      split <;> omega
    unfold allocSectorLoop
    simp only [run_bind, run_get]
    split
    · exact ih he h0 fun _ => hnext rfl rfl
    · next hskip =>
      simp only [not_or, Bool.not_eq_true] at hskip
      obtain ⟨-, hopen, hother, hcomp, -⟩ := hskip
      have he0 : Excl [h] False
          (fun f l => Cores q os f l ∧ f = w.files) w :=
        { he with handles := ⟨he.handles, rfl⟩ }
      obtain ⟨he1, hown⟩ := keeps_owners
        (x := findSectorFreeWindow t allocMinUsableFree (w.files h).slot true) he0
      simp only [run_bind, run_attempt]
      generalize hw1 :
        ((findSectorFreeWindow t allocMinUsableFree (w.files h).slot true).run w).2 = w1
      rw [hw1] at he1 hown
      have hfiles : w1.files = w.files := he1.handles.2
      have hsame := SameLists.ofOwners hown
      have he1' : Excl [h] False (Cores q os) w1 := he1.mono fun _ _ hP => hP.1
      have h01 : (w1.files h).reserveCount = 0 := hfiles ▸ h0
      have hfree : w1.owners.Free t := by
        rw [hown]
        exact ⟨hdata, allocCompactionReserved_eq_false.mp hcomp,
          sectorIsOpenForWriting_eq_false.mp hopen⟩
      have hnores : ∀ k ∈ [h] ++ w1.fs.openFiles, ¬ (w1.files k).reserves t := by
        rw [hfiles, hsame.openFiles]
        intro k hk hr
        by_cases hkh : k = h
        · subst hkh
          have h1 := hr.2.1
          have h2 := hr.2.2
          omega
        · simp only [List.cons_append, List.nil_append, List.mem_cons] at hk
          exact not_reserves_of_sectorReservedByOther he hother k (hk.resolve_left hkh) hkh hr
      split
      · exact ih he1' h01 fun _ => hnext hsame.indexSectors hsame.sectorCount
      · next e hne hr =>
        refine fun _ => ⟨he1', fun s hs => by simp at hs, fun hs => ?_⟩
        simp only [run_throw, Except.error.injEq] at hs
        exact absurd hs hne
      · next win hr =>
        split
        · exact ih he1' h01 fun _ => hnext hsame.indexSectors hsame.sectorCount
        · split
          · have he2 := (he1'.reserveAdd hfree hnores).mark t true
            simp only [run_bind, run_modifyFs, allocMapMarkUsed]
            have hown2 := owners_allocMapMark
              (w := { w1 with fs := { w1.fs with compactionReserve := w1.fs.compactionReserve ++ [t] } })
              t true
            refine ih he2 ?_ fun _ => ?_
            · exact (congrArg (fun o => (Owners.files o h).reserveCount) hown2).trans h01
            · exact (congrArg (fun o => Owners.isData o (nextDataSector w.fs t)) hown2).mpr
                (hnext hsame.indexSectors hsame.sectorCount)
          · intro hclear
            obtain ⟨w3, hrun, he3, hfree3, -⟩ := useAllocWindow_excl win.dataOff
              win.recordOff win.needsFooter he1' hq hfree
              (Cleared.first he1'.indexSectors_pos (fun _ _ => inferInstance) hclear)
            by_cases hdense : win.mdRecords ≥ allocTargetDensity
            · simp only [run_bind, hrun, when_pos hdense, run_modifyFs]
              refine ⟨FrameInv.ofView (w := w3) rfl he3, fun s hs => ?_, fun hs => by simp at hs⟩
              simp only [run_pure, Except.ok.injEq] at hs
              exact hs ▸ hfree3
            · simp only [run_bind, hrun, when_neg hdense, run_pure]
              refine ⟨he3, fun s hs => ?_, fun hs => by simp at hs⟩
              simp only [Except.ok.injEq] at hs
              exact hs ▸ hfree3

/-- One scan of the data sectors. -/
theorem allocSectorOnce_hands (skip : Option Nat)
    (hq : (q h).closed = false ∧ (q h).access = .wronly)
    (he : Excl [h] False (Cores q os) w) (h0 : (w.files h).reserveCount = 0) :
    let r := (allocSectorOnce h skip).run w
    Cleared r.2 → Excl [h] False (Cores q os) r.2 ∧ (∀ s, r.1 = .ok s → r.2.owners.Free s) ∧
      (r.1 = .error .noSpace → (r.2.files h).reserveCount = 0) := by
  unfold allocSectorOnce
  simp only [run_bind, run_getFs]
  split
  · exact fun _ => ⟨he, fun s hs => by simp at hs, fun _ => h0⟩
  · next hcount =>
    refine allocSectorLoop_hands hq he h0 fun _ => ?_
    rw [allocScanStart]
    split
    · next hv => exact validDataSector_iff.mp hv
    · exact ⟨le_rfl, Nat.lt_of_not_le hcount⟩

/-- The scan, and the scan after the reservations have been halved. -/
theorem allocScan_hands (skip : Option Nat) (hq : (q h).closed = false ∧ (q h).access = .wronly)
    (he : Excl [h] False (Cores q os) w) (h0 : (w.files h).reserveCount = 0) :
    HandsFrom h q os w False (ifNoSpace (allocSectorOnce h skip) (allocAfterHalving h skip)) := by
  have hweak : ∀ {c' : Prop} {w' : World}, Excl [h] False (Cores q os) w' →
      Excl [h] (c' ∧ False) (Cores q os) w' := fun he' => he'.weaken And.right
  simp only [HandsFrom, ifNoSpace]
  intro hclear
  obtain ⟨he1, hfree, hzero⟩ := allocSectorOnce_hands skip hq he h0
    (Cleared.first (x := attempt (allocSectorOnce h skip)) he.indexSectors_pos
      (fun r t => by split <;> infer_instance) hclear)
  revert hclear
  simp only [run_bind, run_attempt]
  generalize hw1 : ((allocSectorOnce h skip).run w).2 = w1
  rw [hw1] at he1 hfree hzero
  split
  · next s hr =>
    refine fun _ => ⟨hweak he1, fun t ht => ?_⟩
    simp only [run_pure, Except.ok.injEq] at ht
    exact ht ▸ hfree s hr
  · next hr =>
    obtain ⟨b, w2, hrun, he2, hkeep⟩ := halveLoop_excl w1.fs.openFiles (b := false) he1
    simp only [allocAfterHalving, halveReservations, run_bind, run_getFs, hrun]
    split
    · intro hclear
      have h := allocSectorOnce_hands skip hq he2 (hkeep h (hzero hr)) hclear
      exact ⟨hweak h.1, h.2.1⟩
    · exact fun _ => ⟨hweak he2, fun s hs => by simp at hs⟩
  · exact fun _ => ⟨hweak he1, fun s hs => by simp at hs⟩

/-- The writer's own reservation: a free sector, or the reservation is given up. -/
theorem tryReservedSector_hands (hq : (q h).closed = false ∧ (q h).access = .wronly)
    (he : Excl [h] False (Cores q os) w) :
    let r := (tryReservedSector h).run w
    Cleared r.2 → Excl [h] False (Cores q os) r.2 ∧
      (∀ a, r.1 = .ok a → (∀ s, a.1 = some s → r.2.owners.Free s) ∧
        (a.1 = none → (r.2.files h).reserveCount = 0)) := by
  have hwr := he.writing hq
  have hmem : h ∈ [h] ++ w.fs.openFiles := by simp
  unfold tryReservedSector
  simp only [run_bind, run_get]
  split
  · next h0 =>
    refine fun _ => ⟨he, fun a ha => ?_⟩
    simp only [run_pure, Except.ok.injEq] at ha
    subst ha
    exact ⟨fun s hs => by simp at hs, fun _ => h0⟩
  · next h0 =>
    split
    · obtain ⟨w1, hrun, he1, hzero, -⟩ := allocReleaseReservation_excl (h := h) he
      simp only [run_bind, hrun]
      refine fun _ => ⟨he1, fun a ha => ?_⟩
      simp only [run_pure, Except.ok.injEq] at ha
      subst ha
      exact ⟨fun s hs => by simp at hs, fun _ => hzero⟩
    · next hopen =>
      simp only [not_or, Bool.not_eq_true] at hopen
      have hfirst : (w.files h).reserves (w.files h).reserveFirst := ⟨hwr, le_rfl, by omega⟩
      have hfree : w.owners.Free (w.files h).reserveFirst :=
        ⟨he.reserved.data h hmem _ hfirst, he.reserved.compaction h hmem _ hfirst,
          sectorIsOpenForWriting_eq_false.mp hopen.1⟩
      obtain ⟨he1, hown⟩ := keeps_owners (I := Excl [h] False (Cores q os))
        (x := flashSpanIsErased ((w.files h).reserveFirst * w.fs.sectorSize) w.fs.sectorSize) he
      simp only [run_bind, run_attempt]
      generalize hw1 : ((flashSpanIsErased ((w.files h).reserveFirst * w.fs.sectorSize)
        w.fs.sectorSize).run w).2 = w1
      rw [hw1] at he1 hown
      have hfiles : w1.files = w.files := congrArg Owners.files hown
      have hfree1 : w1.owners.Free (w.files h).reserveFirst := hown ▸ hfree
      split
      · have he2 := he1.mark (w.files h).reserveFirst false
        have hown2 := owners_allocMapMark (w := w1) (w.files h).reserveFirst false
        have hfiles2 : (_ : World).files = w1.files := congrArg Owners.files hown2
        have he3 := he2.setFileShrink (h := h) (g := fun f =>
            { f with reserveFirst := if f.reserveCount - 1 = 0 then 0 else u16 (f.reserveFirst + 1)
                     reserveCount := f.reserveCount - 1 }) rfl (by
          intro s hr
          rw [hfiles2, hfiles] at hr ⊢
          have h1 := hr.2.1
          have h2 := hr.2.2
          dsimp only at h1 h2
          refine ⟨hwr, ?_⟩
          by_cases hlast : (w.files h).reserveCount - 1 = 0
          · rw [if_pos hlast] at h1 h2
            omega
          · have hu : u16 ((w.files h).reserveFirst + 1) = (w.files h).reserveFirst + 1 :=
              he.u16_reserved hmem ⟨hwr, by omega, by omega⟩
            rw [if_neg hlast, hu] at h1 h2
            omega)
        have hsame : SameLists w1 ({ w1 with
            fs := allocMapMark (w.files h).reserveFirst false w1.fs } : World) := .ofOwners hown2
        have hfree3 := he1.free_of_same he3 hfree1 (hsame.trans ⟨rfl, rfl, rfl, rfl⟩)
        intro hclear
        simp only [run_bind, allocMapMarkUnknown, run_modifyFs, run_modifyFile] at hclear ⊢
        obtain ⟨w4, hrun, he4, hfree4⟩ := useBlankSector_hands he3 hq hfree3
          (Cleared.first (f := fun sector => pure (some sector, none)) he3.indexSectors_pos
            (fun _ _ => inferInstance) hclear)
        have hrun' : (useBlankSector h (w.files h).reserveFirst).run _ = (.ok _, w4) := hrun
        simp only [World.setFile] at hrun'
        simp only [hrun', run_pure, Except.ok.injEq]
        refine ⟨he4, ?_⟩
        rintro a rfl
        refine ⟨fun s hs => ?_, fun hs => by simp at hs⟩
        simp only [Option.some.injEq] at hs
        exact hs ▸ hfree4
      · next e hr =>
        obtain ⟨w2, hrun, he2, hzero, -⟩ := allocReleaseReservation_excl (h := h) he1
        simp only [run_bind, hrun]
        split
        · exact fun _ => ⟨he2, fun a ha => by simp at ha⟩
        · refine fun _ => ⟨he2, fun a ha => ?_⟩
          simp only [run_pure, Except.ok.injEq] at ha
          subst ha
          exact ⟨fun s hs => by simp at hs, fun _ => hzero⟩

/-- Allocation past the writer's own reservation. -/
theorem allocUnreserved_hands (skip : Option Nat) (hq : (q h).closed = false ∧ (q h).access = .wronly)
    (he : Excl [h] False (Cores q os) w) (h0 : (w.files h).reserveCount = 0) :
    let r := (allocUnreserved h skip).run w
    Cleared r.2 → Excl [h] False (Cores q os) r.2 ∧ ∀ s, r.1 = .ok s → r.2.owners.Free s := by
  have hpos := he.indexSectors_pos
  have hscan := allocScan_hands skip hq he h0
  unfold allocUnreserved
  dsimp only
  intro hclear
  split at hclear
  · next hgc =>
    rw [if_pos hgc]
    have hall := (((hscan.ifNoSpace hpos (allocateErasedGcSector_hands hq)).ifNoSpace hpos
      (tryCompactionReserveForAlloc_hands hq)).ifNoSpace hpos (allocRelaxedCompaction_hands hq)) hclear
    exact ⟨hall.1.weaken False.elim, hall.2⟩
  · next hgc =>
    rw [if_neg hgc]
    exact ⟨(hscan hclear).1.weaken False.elim, (hscan hclear).2⟩

/-- `fffs_alloc_next_sector` returns a data sector that no open writer owns,
outside the compaction reserve. -/
theorem allocNextSector_free (hq : (q h).closed = false ∧ (q h).access = .wronly)
    (he : Excl [h] False (Cores q os) w) :
    let r := (allocNextSector h).run w
    Cleared r.2 → Excl [h] False (Cores q os) r.2 ∧ ∀ s, r.1 = .ok s → r.2.owners.Free s := by
  have hnote : ∀ {w1 : World} {s : Nat}, Excl [h] False (Cores q os) w1 → w1.owners.Free s →
      Excl [h] False (Cores q os)
        { w1 with trace := ⟨.alloc h s, w1.fs, w1.files⟩ :: w1.trace } :=
    fun he1 hfree => he1.note ⟨he1.reservedOpen, fun k hk _ => hfree.unowned k hk⟩
  have hsector : ∀ (reserved skip : Option Nat) t,
      Keeps (Since t) (reserved.elim (allocUnreserved h skip) pure) := by
    intro reserved skip t
    rcases reserved with _ | s
    · exact (inferInstance : Keeps (Since t) (allocUnreserved h skip))
    · exact (inferInstance : Keeps (Since t) (pure s : M Nat))
  unfold allocNextSector
  dsimp only
  intro hclear
  obtain ⟨he1, hres⟩ := tryReservedSector_hands hq he (Cleared.first he.indexSectors_pos (fun a t => by
    have hs := hsector a.1 a.2 t
    infer_instance) hclear)
  rcases hrun : (tryReservedSector h).run w with ⟨r, w1⟩
  rw [hrun] at he1 hres
  cases r with
  | error e =>
    rw [bind_of_error hrun]
    exact ⟨he1, fun s hs => by cases hs⟩
  | ok a =>
    obtain ⟨reserved, skip⟩ := a
    rw [bind_of_ok hrun] at hclear ⊢
    obtain ⟨hsome, hnone⟩ := hres _ rfl
    have hgrows := hsector reserved skip
    have hgot := Cleared.first he1.indexSectors_pos (fun _ _ => inferInstance) hclear
    have hout : Excl [h] False (Cores q os) ((reserved.elim (allocUnreserved h skip) pure).run w1).2 ∧
        ∀ s, ((reserved.elim (allocUnreserved h skip) pure).run w1).1 = .ok s →
          ((reserved.elim (allocUnreserved h skip) pure).run w1).2.owners.Free s := by
      rcases reserved with _ | s
      · exact allocUnreserved_hands skip hq he1 (hnone rfl) hgot
      · refine ⟨he1, fun t ht => ?_⟩
        cases ht
        exact hsome s rfl
    obtain ⟨he2, hfree⟩ := hout
    rcases hrun2 : (reserved.elim (allocUnreserved h skip) pure).run w1 with ⟨r2, w2⟩
    rw [hrun2] at he2 hfree
    cases r2 with
    | error e =>
      rw [bind_of_error hrun2]
      exact ⟨he2, fun s hs => by cases hs⟩
    | ok s =>
      rw [bind_of_ok hrun2]
      refine ⟨hnote he2 (hfree s rfl), fun t ht => ?_⟩
      cases ht
      exact hfree s rfl

end Fastffs
