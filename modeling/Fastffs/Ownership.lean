import Fastffs.Frame

/-!
# Who owns a sector

A writer owns its head, its current sector and the sectors of its pending span,
and it reserves a range of sectors beyond them.  The collector and the allocator
each look at some of the places where ownership is written down: the handles,
the compaction reserve and the allocation map.

`Excl` is the invariant that ties them together.  It holds between calls, and
inside a call at every act of the trace.  This module proves it for the
primitive changes, for garbage collection and for compaction.
-/

namespace Fastffs

open Prog

/-! ## Ownership -/

/-- The handle is a writer. -/
def File.writing (file : File) : Prop := file.closed = false ∧ file.access = .wronly

/-- The handle is a writer at the sector. -/
def File.owns (file : File) (s : Nat) : Prop :=
  file.writing ∧ (file.head = s ∨ file.current = s ∨
    (file.spanHead ≠ 0 ∧ file.spanHead ≤ s ∧ s ≤ file.current))

/-- The sector is in the reservation of a writer. -/
def File.reserves (file : File) (s : Nat) : Prop :=
  file.writing ∧ file.reserveFirst ≤ s ∧ s < file.reserveFirst + file.reserveCount

/-- The handles and the lists that say who owns a sector. -/
structure Owners where
  files : Nat → File
  openFiles : List Nat
  compactionReserve : List Nat
  indexSectors : Nat
  sectorCount : Nat

/-- The owners in a file system. -/
def ownersOf (fs : Fs) (files : Nat → File) : Owners where
  files := files
  openFiles := fs.openFiles
  compactionReserve := fs.compactionReserve
  indexSectors := fs.indexSectors
  sectorCount := fs.sectorCount

/-- The owners in a world. -/
def World.owners (w : World) : Owners := ownersOf w.fs w.files

/-- A sector of the data area. -/
def Owners.isData (o : Owners) (s : Nat) : Prop := o.indexSectors ≤ s ∧ s < o.sectorCount

/-- No open writer owns the sector. -/
def Owners.unowned (o : Owners) (s : Nat) : Prop := ∀ k ∈ o.openFiles, ¬ (o.files k).owns s

/-- A data sector that no open writer owns, outside the compaction reserve. -/
structure Owners.Free (o : Owners) (s : Nat) : Prop where
  data : o.isData s
  notReserve : s ∉ o.compactionReserve
  unowned : o.unowned s

/-- The reservations of the handles `hs` are ranges of data sectors, and they
meet neither each other nor the compaction reserve. -/
structure Owners.Reserved (o : Owners) (hs : List Nat) : Prop where
  data : ∀ h ∈ hs, ∀ s, (o.files h).reserves s → o.isData s
  disjoint : ∀ h ∈ hs, ∀ k ∈ hs, h ≠ k → ∀ s, (o.files h).reserves s → ¬ (o.files k).reserves s
  compaction : ∀ h ∈ hs, ∀ s, (o.files h).reserves s → s ∉ o.compactionReserve

/-- An act that respects the owners of its moment. -/
def Event.Ok (e : Event) : Prop :=
  (ownersOf e.fs e.files).Reserved e.fs.openFiles ∧
    match e.act with
    | .alloc h s => ∀ k ∈ e.fs.openFiles, k ≠ h → ¬ (e.files k).owns s
    | .copyTo s => (ownersOf e.fs e.files).unowned s
    | .erase s => (ownersOf e.fs e.files).unowned s
    | .reserve _ | .flush _ _ | .narrow _ | .sample _ => True

/-! ## Reading the checks of the source -/

theorem sectorIsOpenForWriting_eq_false {w : World} {s : Nat} :
    sectorIsOpenForWriting w s = false ↔ w.owners.unowned s := by
  rw [sectorIsOpenForWriting, List.any_eq_false]
  apply forall₂_congr
  intro k hk
  simp only [World.owners, ownersOf, File.owns, File.writing, Bool.and_eq_true, Bool.or_eq_true,
    Bool.not_eq_true', beq_iff_eq, bne_iff_ne, decide_eq_true_eq]
  tauto

theorem validDataSector_iff {w : World} {s : Nat} :
    validDataSector w.fs s = true ↔ w.owners.isData s := by
  simp [validDataSector, Owners.isData, World.owners, ownersOf]

theorem allocCompactionReserved_eq_false {fs : Fs} {s : Nat} :
    allocCompactionReserved fs s = false ↔ s ∉ fs.compactionReserve := by
  simp [allocCompactionReserved]

/-! ## The invariant -/

/-- Where `reserve_after` asks about a sector of the compaction reserve, the allocation
map has the sector. -/
def Event.Clear [Opts] (e : Event) : Prop :=
  match e.act with
  | .reserve s => s ∈ e.fs.compactionReserve → allocMapMaybeUsed e.fs s = true
  | _ => True

/-- The invariant.  `hs` are handles that allocate but are not registered yet.
`c` asks that the compaction candidates are free, and `P` is any other promise
about the handles. -/
structure Excl (hs : List Nat) (c : Prop) (P : (Nat → File) → List Nat → Prop) (w : World) :
    Prop where
  indexSectors_pos : 0 < w.fs.indexSectors
  sectorCount_le : w.fs.sectorCount ≤ uint16Max
  nodup : w.fs.openFiles.Nodup
  owned_data : ∀ h ∈ w.fs.openFiles, ∀ s, (w.files h).owns s → w.owners.isData s
  owned_disjoint : ∀ h ∈ w.fs.openFiles, ∀ k ∈ w.fs.openFiles, h ≠ k →
    ∀ s, (w.files h).owns s → ¬ (w.files k).owns s
  reserve_nodup : w.fs.compactionReserve.Nodup
  reserve_data : ∀ s ∈ w.fs.compactionReserve, w.owners.isData s
  reserve_unowned : ∀ s ∈ w.fs.compactionReserve, w.owners.unowned s
  reserved : w.owners.Reserved (hs ++ w.fs.openFiles)
  candidates : c ∨ w.fs.sectorCount ≤ w.fs.indexSectors →
    ∀ x ∈ w.fs.compactionCandidates, x.sector ≠ 0 → w.owners.Free x.sector
  events : ∀ e ∈ w.trace, e.Ok
  handles : P w.files w.fs.openFiles

/-- The invariant, and a sector and a list of sectors that are free. -/
structure ExclAt (hs : List Nat) (c : Prop) (P : (Nat → File) → List Nat → Prop) (S : List Nat)
    (s : Nat) (w : World) : Prop extends Excl hs c P w where
  free : w.owners.Free s
  others : ∀ t ∈ S, w.owners.Free t

variable {hs S : List Nat} {c : Prop} {P : (Nat → File) → List Nat → Prop} {s : Nat} {w w' : World}

/-! ## Invariants of the lower layers -/

theorem owners_eq_of_ramView (h : ramView w = ramView w') : w.owners = w'.owners := by
  simp only [ramView, RamView.mk.injEq] at h
  simp only [World.owners, ownersOf, h]

/-- The invariant depends on the view only. -/
theorem Excl.ofView (h : ramView w = ramView w') (he : Excl hs c P w) : Excl hs c P w' := by
  have hown := owners_eq_of_ramView h
  simp only [ramView, RamView.mk.injEq] at h
  obtain ⟨hfiles, hopen, hres, hidx, -, hcount, -, hcand, -, -, -, htrace⟩ := h
  constructor
  · exact hidx ▸ he.indexSectors_pos
  · exact hcount ▸ he.sectorCount_le
  · exact hopen ▸ he.nodup
  · rw [← hopen, ← hfiles, ← hown]
    exact he.owned_data
  · rw [← hopen, ← hfiles]
    exact he.owned_disjoint
  · exact hres ▸ he.reserve_nodup
  · rw [← hres, ← hown]
    exact he.reserve_data
  · rw [← hres, ← hown]
    exact he.reserve_unowned
  · rw [← hown, ← hopen]
    exact he.reserved
  · rw [← hcand, ← hown, ← hidx, ← hcount]
    exact he.candidates
  · exact htrace ▸ he.events
  · exact hfiles ▸ hopen ▸ he.handles

/-- Adding an act that respects the owners. -/
theorem Excl.note {a : Act} (he : Excl hs c P w) (hok : Event.Ok ⟨a, w.fs, w.files⟩) :
    Excl hs c P { w with trace := ⟨a, w.fs, w.files⟩ :: w.trace } where
  __ := he
  events := by
    intro e hmem
    rcases List.mem_cons.mp hmem with rfl | hmem
    · exact hok
    · exact he.events e hmem

theorem Excl.reservedOpen (he : Excl hs c P w) : w.owners.Reserved w.fs.openFiles where
  data := fun h hh => he.reserved.data h (List.mem_append_right _ hh)
  disjoint := fun h hh k hk =>
    he.reserved.disjoint h (List.mem_append_right _ hh) k (List.mem_append_right _ hk)
  compaction := fun h hh => he.reserved.compaction h (List.mem_append_right _ hh)

/-- An index sector has no owner. -/
theorem Excl.unowned_index (he : Excl hs c P w) (h : s < w.fs.indexSectors) :
    w.owners.unowned s := by
  intro k hk ho
  have hle : w.fs.indexSectors ≤ s := (he.owned_data k hk s ho).1
  omega

instance : FrameInv (Excl hs c P) where
  indexSectors_pos := fun he => he.indexSectors_pos
  ofView := Excl.ofView
  noteErase := fun h he => he.note ⟨he.reservedOpen, he.unowned_index h⟩

instance : NarrowInv (Excl hs c P) := ⟨fun he => he.note ⟨he.reservedOpen, trivial⟩⟩

theorem ExclAt.ofView (h : ramView w = ramView w') (he : ExclAt hs c P S s w) :
    ExclAt hs c P S s w' := by
  have hown := owners_eq_of_ramView h
  exact { Excl.ofView h he.toExcl with free := hown ▸ he.free, others := hown ▸ he.others }

theorem ExclAt.note {a : Act} (he : ExclAt hs c P S s w)
    (hok : Event.Ok ⟨a, w.fs, w.files⟩) :
    ExclAt hs c P S s { w with trace := ⟨a, w.fs, w.files⟩ :: w.trace } :=
  { he.toExcl.note hok with free := he.free, others := he.others }

instance : FrameInv (ExclAt hs c P S s) where
  indexSectors_pos := fun he => he.indexSectors_pos
  ofView := ExclAt.ofView
  noteErase := fun h he => he.note ⟨he.reservedOpen, he.unowned_index h⟩

instance : NarrowInv (ExclAt hs c P S s) := ⟨fun he => he.note ⟨he.reservedOpen, trivial⟩⟩

/-- The invariant, with the owners fixed. -/
def WithOwners (I : World → Prop) (o : Owners) (w : World) : Prop := I w ∧ w.owners = o

instance {I : World → Prop} [FrameInv I] {o : Owners} : FrameInv (WithOwners I o) where
  indexSectors_pos := fun h => FrameInv.indexSectors_pos h.1
  ofView := fun h hw => ⟨FrameInv.ofView h hw.1, (owners_eq_of_ramView h).symm.trans hw.2⟩
  noteErase := fun h hw => ⟨FrameInv.noteErase h hw.1, hw.2⟩

instance {I : World → Prop} [NarrowInv I] {o : Owners} : NarrowInv (WithOwners I o) :=
  ⟨fun hw => ⟨NarrowInv.narrow hw.1, hw.2⟩⟩

/-- A program of the lower layers keeps the invariant and the owners. -/
theorem keeps_owners {I : World → Prop} {α : Type} {x : M α} [hx : ∀ o, Keeps (WithOwners I o) x]
    (hw : I w) : I (x.run w).2 ∧ (x.run w).2.owners = w.owners :=
  (hx w.owners).keeps w ⟨hw, rfl⟩

/-! ## The allocation map -/

variable [Opts]

/-- The invariant does not read the map. -/
theorem Excl.mark (t : Nat) (b : Bool) (he : Excl hs c P w) :
    Excl hs c P { w with fs := allocMapMark t b w.fs } := by
  unfold allocMapMark
  split
  · split
    · exact he
    · exact { he with }
  · exact he

/-- The owners do not depend on the map. -/
theorem owners_allocMapMark (t : Nat) (b : Bool) :
    ({ w with fs := allocMapMark t b w.fs } : World).owners = w.owners := by
  unfold allocMapMark
  split
  · split <;> rfl
  · rfl

theorem ExclAt.mark (t : Nat) (b : Bool) (he : ExclAt hs c P S s w) :
    ExclAt hs c P S s { w with fs := allocMapMark t b w.fs } :=
  { he.toExcl.mark t b with
    free := (owners_allocMapMark t b).symm ▸ he.free
    others := (owners_allocMapMark t b).symm ▸ he.others }

instance (t : Nat) : Keeps (Excl hs c P) (allocMapMarkUsed t) := ⟨fun _ he => he.mark t true⟩

instance (t : Nat) : Keeps (ExclAt hs c P S s) (allocMapMarkUsed t) := ⟨fun _ he => he.mark t true⟩

instance (t : Nat) : Keeps (Excl hs c P) (allocMapMarkUnknown t) := ⟨fun _ he => he.mark t false⟩

instance (t : Nat) : Keeps (ExclAt hs c P S s) (allocMapMarkUnknown t) := ⟨fun _ he => he.mark t false⟩

instance (t : Nat) : Keeps (Excl hs c P) (markSectorUsed t) := by
  unfold markSectorUsed; infer_instance

instance (t : Nat) : Keeps (ExclAt hs c P S s) (markSectorUsed t) := by
  unfold markSectorUsed; infer_instance

/-- Programming the metadata of an extent sets at most one bit of the map. -/
theorem keeps_programExtentMetadata {I : World → Prop} [FrameInv I]
    [∀ t, Keeps I (markSectorUsed t)] (sector slot : Nat) (type : Nor.Byte)
    (dataOff recordOff : Nat) (footer : Bool) (dataLen spanLen size next : Nat) (live : Bool) :
    Keeps I (programExtentMetadata sector slot type dataOff recordOff footer dataLen spanLen size
      next live) := by
  unfold programExtentMetadata
  infer_instance

instance (sector slot : Nat) (type : Nor.Byte) (dataOff recordOff : Nat) (footer : Bool)
    (dataLen spanLen size next : Nat) (live : Bool) :
    Keeps (Excl hs c P) (programExtentMetadata sector slot type dataOff recordOff footer dataLen
      spanLen size next live) :=
  keeps_programExtentMetadata ..

instance (sector slot : Nat) (type : Nor.Byte) (dataOff recordOff : Nat) (footer : Bool)
    (dataLen spanLen size next : Nat) (live : Bool) :
    Keeps (ExclAt hs c P S s) (programExtentMetadata sector slot type dataOff recordOff footer dataLen
      spanLen size next live) :=
  keeps_programExtentMetadata ..

/-! ## Compaction -/

omit [Opts] in
/-- Taking a sector out of the compaction reserve leaves it free. -/
theorem Excl.reserveRemove (he : Excl hs c P w) (hmem : s ∈ w.fs.compactionReserve) :
    ExclAt hs c P [] s
      { w with fs := { w.fs with compactionReserve := w.fs.compactionReserve.erase s } } := by
  have hsub : ∀ t ∈ w.fs.compactionReserve.erase s, t ∈ w.fs.compactionReserve :=
    fun t => List.mem_of_mem_erase
  exact {
    indexSectors_pos := he.indexSectors_pos
    sectorCount_le := he.sectorCount_le
    nodup := he.nodup
    owned_data := he.owned_data
    owned_disjoint := he.owned_disjoint
    reserve_nodup := he.reserve_nodup.erase s
    reserve_data := fun t ht => he.reserve_data t (hsub t ht)
    reserve_unowned := fun t ht => he.reserve_unowned t (hsub t ht)
    reserved := ⟨he.reserved.data, he.reserved.disjoint,
      fun h hh t hr hmem => he.reserved.compaction h hh t hr (hsub t hmem)⟩
    candidates := fun hc x hx h0 =>
      have hfree := he.candidates hc x hx h0
      ⟨hfree.data, fun hmem => hfree.notReserve (hsub _ hmem), hfree.unowned⟩
    events := he.events
    handles := he.handles
    free := ⟨he.reserve_data s hmem, he.reserve_nodup.not_mem_erase, he.reserve_unowned s hmem⟩
    others := fun _ h => by simp at h }

/-- A sector found in the compaction reserve is one of it. -/
theorem mem_of_compactionReserveLoop {slot dataLen : Nat} {list : List Nat}
    {best found : Option (Nat × FreeWindow)}
    (h : (compactionReserveLoop slot dataLen list best).run w = (.ok found, w')) :
    found = best ∨ ∃ b, found = some b ∧ b.1 ∈ list := by
  induction list generalizing best w with
  | nil =>
    simp only [compactionReserveLoop, run_pure, Prod.mk.injEq, Except.ok.injEq] at h
    exact .inl h.1.symm
  | cons t rest ih =>
    rw [compactionReserveLoop] at h
    obtain ⟨r, w1, -, h⟩ := bind_ok h
    have hrest : ∀ {best'}, (compactionReserveLoop slot dataLen rest best').run w1 = (.ok found, w') →
        (best' = best ∨ ∃ win, best' = some (t, win)) →
        found = best ∨ ∃ b, found = some b ∧ b.1 ∈ t :: rest := by
      intro best' h' hb
      rcases ih h' with rfl | ⟨b, rfl, hmem⟩
      · rcases hb with rfl | ⟨win, rfl⟩
        · exact .inl rfl
        · exact .inr ⟨(t, win), rfl, List.mem_cons_self⟩
      · exact .inr ⟨b, rfl, List.mem_cons_of_mem _ hmem⟩
    split at h
    · exact hrest h (.inl rfl)
    · simp at h
    · next win =>
      split at h
      · apply hrest h
        exact (ite_eq_or_eq _ _ _).symm.imp id fun h => ⟨win, h⟩
      · simp only [run_pure, Prod.mk.injEq, Except.ok.injEq] at h
        exact .inr ⟨(t, win), h.1.symm, List.mem_cons_self⟩

instance {I : World → Prop} [FrameInv I] [NarrowInv I] (slot dataLen : Nat) (list : List Nat)
    (best : Option (Nat × FreeWindow)) :
    Keeps I (compactionReserveLoop slot dataLen list best) := by
  induction list generalizing best with
  | nil => unfold compactionReserveLoop; infer_instance
  | cons t rest ih =>
    unfold compactionReserveLoop
    refine Keeps.bind (k := fun r => ?_)
    split <;> infer_instance

/-- A sector the scan of a compaction returns is not owned. -/
theorem compactionWindowLoop_unowned {I : World → Prop} [FrameInv I] [NarrowInv I]
    (source slot dataLen : Nat) (normal : Bool) {n t : Nat} (hw : I w) :
    let r := (compactionWindowLoop source slot dataLen normal n t).run w
    I r.2 ∧ ∀ b, r.1 = .ok (some b) → r.2.owners.unowned b.1 := by
  induction n generalizing t w with
  | zero => exact ⟨hw, fun b hb => by simp [compactionWindowLoop] at hb⟩
  | succ n ih =>
    unfold compactionWindowLoop
    simp only [run_bind, run_get]
    split
    · exact ih hw
    · next hskip =>
      obtain ⟨hw1, hown⟩ := keeps_owners (I := I)
        (x := findSectorFreeWindow t dataLen slot normal) hw
      simp only [run_bind, run_attempt]
      split
      · simp only [run_bind, run_modifyFs, run_pure, Except.ok.injEq, Option.some.injEq]
        refine ⟨FrameInv.ofView (w := ((findSectorFreeWindow t dataLen slot normal).run w).2) rfl hw1,
          ?_⟩
        rintro b rfl
        have hopen : sectorIsOpenForWriting w t = false := by
          simp only [Bool.or_eq_true, not_or, Bool.not_eq_true] at hskip
          exact hskip.2
        have hun := sectorIsOpenForWriting_eq_false.mp hopen
        rw [← hown] at hun
        exact hun
      · exact ih hw1
      · exact ⟨hw1, fun b hb => by simp at hb⟩

omit [Opts] in
/-- The other free sector stays free when a sector leaves the reserve. -/
theorem ExclAt.reserveRemove {t : Nat} (he : ExclAt hs c P S s w) (hmem : t ∈ w.fs.compactionReserve) :
    ExclAt hs c P S s
      { w with fs := { w.fs with compactionReserve := w.fs.compactionReserve.erase t } } :=
  { (he.toExcl.reserveRemove hmem).toExcl with
    free := ⟨he.free.data, fun h => he.free.notReserve (List.mem_of_mem_erase h),
      he.free.unowned⟩
    others := fun t ht => ⟨(he.others t ht).data,
      fun h => (he.others t ht).notReserve (List.mem_of_mem_erase h), (he.others t ht).unowned⟩ }

/-- The destination of a compaction is not owned. -/
theorem findCompactionRootWindow_unowned (slot dataLen : Nat) (relaxed : Bool)
    (hw : ExclAt hs c P S s w) :
    let r := (findCompactionRootWindow s slot dataLen relaxed).run w
    ExclAt hs c P S s r.2 ∧ ∀ b, r.1 = .ok b → r.2.owners.unowned b.1 := by
  unfold findCompactionRootWindow
  simp only [run_bind, run_getFs]
  obtain ⟨hw1, hown⟩ := keeps_owners (I := ExclAt hs c P S s)
    (x := compactionReserveLoop slot dataLen w.fs.compactionReserve none) hw
  rcases hr : (compactionReserveLoop slot dataLen w.fs.compactionReserve none).run w with ⟨r, w1⟩
  rw [hr] at hw1 hown
  cases r with
  | error e => exact ⟨hw1, fun b hb => by simp at hb⟩
  | ok found =>
    cases found with
    | some b =>
      obtain ⟨t, win⟩ := b
      have hmem : t ∈ w1.fs.compactionReserve := by
        rcases mem_of_compactionReserveLoop hr with h | ⟨b, hb, hmem⟩
        · simp at h
        · have hres : w1.fs.compactionReserve = w.fs.compactionReserve :=
            congrArg Owners.compactionReserve hown
          simp only [Option.some.injEq] at hb
          subst hb
          rw [hres]
          exact hmem
      have hfree := (hw1.toExcl.reserveRemove hmem).free
      have hw2 := hw1.reserveRemove hmem
      simp only [allocCompactionReserveRemove, allocMapMarkUnknown, run_bind, run_modifyFs,
        run_pure, Except.ok.injEq]
      refine ⟨hw2.mark t false, ?_⟩
      rintro b rfl
      exact (congrArg (Owners.unowned · t) (owners_allocMapMark t false)).mpr hfree.unowned
    | none =>
      simp only [run_bind, run_getFs]
      -- the first pass over the data sectors, and in a relaxed search the second
      obtain ⟨hw2, hun⟩ := compactionWindowLoop_unowned s slot
        dataLen true (n := w1.fs.sectorCount - w1.fs.indexSectors)
        (t := allocScanStart w1.fs) hw1
      split
      · next found w2 hrun =>
        rw [hrun] at hw2 hun
        cases found with
        | some b => exact ⟨hw2, fun b' hb => hun b' (by simpa using hb)⟩
        | none =>
          cases relaxed with
          | false => exact ⟨hw2, fun b hb => by simp at hb⟩
          | true =>
            simp only [if_true, run_bind, run_getFs]
            obtain ⟨hw3, hun3⟩ := compactionWindowLoop_unowned s slot
              dataLen false
              (n := w1.fs.sectorCount - w1.fs.indexSectors) (t := allocScanStart w2.fs) hw2
            split
            · next found w3 hrun3 =>
              rw [hrun3] at hw3 hun3
              cases found with
              | some b => exact ⟨hw3, fun b' hb => hun3 b' (by simpa using hb)⟩
              | none => exact ⟨hw3, fun b hb => by simp at hb⟩
            · next e w3 hrun3 =>
              rw [hrun3] at hw3
              exact ⟨hw3, fun b hb => by simp at hb⟩
      · next e w2 hrun =>
        rw [hrun] at hw2
        exact ⟨hw2, fun b hb => by simp at hb⟩

instance (slot dataLen : Nat) (relaxed : Bool) :
    Keeps (ExclAt hs c P S s) (allocFindCompactionRootWindow s slot dataLen relaxed) := by
  constructor
  intro w hw
  obtain ⟨hw1, hun⟩ := findCompactionRootWindow_unowned slot dataLen relaxed hw
  simp only [allocFindCompactionRootWindow, run_bind]
  split
  · next b w1 hrun =>
    rw [hrun] at hw1 hun
    exact hw1.note ⟨hw1.reservedOpen, hun b rfl⟩
  · next e w1 hrun =>
    rw [hrun] at hw1
    exact hw1

instance (r : MdRecord) (relaxed : Bool) :
    Keeps (ExclAt hs c P S s) (gcCopyRootRecord s r relaxed) := by
  unfold gcCopyRootRecord; infer_instance

instance (copied fuel : Nat) (reader : SectorReader) (walk : MdWalk) (entry : Nat) :
    Keeps (ExclAt hs c P S s) (tombstoneCopiedLoop s copied fuel reader walk entry) := by
  induction fuel generalizing reader walk entry with
  | zero => unfold tombstoneCopiedLoop; infer_instance
  | succ fuel ih => unfold tombstoneCopiedLoop; infer_instance

instance (copied : Nat) : Keeps (ExclAt hs c P S s) (gcTombstoneCopiedRoots s copied) := by
  unfold gcTombstoneCopiedRoots; infer_instance

instance (relaxed : Bool) (fuel : Nat) (reader : SectorReader) (walk : MdWalk) (entry copied : Nat) :
    Keeps (ExclAt hs c P S s) (compactRootLoop s relaxed fuel reader walk entry copied) := by
  induction fuel generalizing reader walk entry copied with
  | zero => unfold compactRootLoop; infer_instance
  | succ fuel ih =>
    unfold compactRootLoop
    split
    · infer_instance
    · refine Keeps.bind (k := fun r => ?_)
      split
      · infer_instance
      · split
        · infer_instance
        · split
          · infer_instance
          · split
            · refine Keeps.bind (k := fun w => ?_)
              split
              · infer_instance
              · refine Keeps.bind (k := fun r => ?_)
                split <;> infer_instance
            · infer_instance

/-- Erasing a free sector. -/
instance : Keeps (ExclAt hs c P S s) (eraseDataSector s) := by
  constructor
  intro w hw
  have hw1 := hw.note (a := .erase s) ⟨hw.reservedOpen, hw.free.unowned⟩
  exact (inferInstance : Keeps (ExclAt hs c P S s)
    (backendErase (s * w.fs.sectorSize) w.fs.sectorSize)).keeps _ hw1

instance (status : Except Status Unit) : Keeps (ExclAt hs c P S s) (compactErase s status) := by
  unfold compactErase; infer_instance

instance (relaxed : Bool) : Keeps (ExclAt hs c P S s) (gcCompactRootOnlySector s relaxed) := by
  unfold gcCompactRootOnlySector
  refine Keeps.bind (k := fun fs => Keeps.bind (k := fun walk => Keeps.bind (k := fun r => ?_)))
  dsimp only
  refine Keeps.bind (k := fun r => ?_)
  split <;> infer_instance

/-- A compaction returns the sector it has erased. -/
theorem gcCompactRootOnlySector_ok {relaxed : Bool} {t : Nat}
    (h : (gcCompactRootOnlySector s relaxed).run w = (.ok t, w')) : t = s := by
  unfold gcCompactRootOnlySector at h
  obtain ⟨fs, w1, -, h⟩ := bind_ok h
  obtain ⟨walk, w2, -, h⟩ := bind_ok h
  obtain ⟨r, w3, -, h⟩ := bind_ok h
  obtain ⟨r', w4, -, h⟩ := bind_ok h
  split at h
  · obtain ⟨-, w5, -, h⟩ := bind_ok h
    simp only [run_pure, Prod.mk.injEq, Except.ok.injEq] at h
    exact h.1.symm
  · obtain ⟨-, w5, -, h⟩ := bind_ok h
    simp at h

/-- A compaction erases a free sector. -/
theorem compactCandidatesLoop_free {relaxed : Bool} {list : List CompactionCandidate}
    (hw : Excl hs c P w) (hfree : ∀ x ∈ list, x.sector ≠ 0 → w.owners.Free x.sector) :
    let r := (compactCandidatesLoop relaxed list).run w
    Excl hs c P r.2 ∧ ∀ t, r.1 = .ok t → r.2.owners.Free t := by
  induction list generalizing w with
  | nil => exact ⟨hw, fun t ht => by simp [compactCandidatesLoop] at ht⟩
  | cons x rest ih =>
    unfold compactCandidatesLoop
    split
    · exact ⟨hw, fun t ht => by simp at ht⟩
    · next h0 =>
      simp only [run_bind]
      obtain ⟨hw1, hown⟩ := keeps_owners (I := Excl hs c P) (x := gcFsinfoAllowsCompaction x) hw
      split
      · next allowed w1 hrun =>
        rw [hrun] at hw1 hown
        have hfree1 : ∀ y ∈ x :: rest, y.sector ≠ 0 → w1.owners.Free y.sector := by
          rw [show w1.owners = w.owners from hown]
          exact hfree
        cases allowed with
        | false => exact ih hw1 fun y hy => hfree1 y (List.mem_cons_of_mem _ hy)
        | true =>
          -- the candidates after this one stay free while it is compacted
          have hat : ExclAt hs c P ((rest.map (·.sector)).filter (· != 0)) x.sector w1 := by
            refine { hw1 with free := hfree1 x List.mem_cons_self h0, others := ?_ }
            intro t ht
            simp only [List.mem_filter, List.mem_map, bne_iff_ne] at ht
            obtain ⟨⟨y, hy, rfl⟩, hne⟩ := ht
            exact hfree1 y (List.mem_cons_of_mem _ hy) hne
          have hw2 := (inferInstance : Keeps (ExclAt hs c P _ x.sector)
            (gcCompactRootOnlySector x.sector relaxed)).keeps w1 hat
          have hsec : ∀ t, ((gcCompactRootOnlySector x.sector relaxed).run w1).1 = .ok t →
              t = x.sector := fun t ht => gcCompactRootOnlySector_ok (Prod.ext ht rfl)
          simp only [if_true, run_bind, run_attempt]
          split
          · next t hr =>
            refine ⟨hw2.toExcl, ?_⟩
            rintro t' ht'
            simp only [run_pure, Except.ok.injEq] at ht'
            subst ht'
            rw [hsec t hr]
            exact hw2.free
          · refine ih hw2.toExcl ?_
            intro y hy hne
            apply hw2.others
            simp only [List.mem_filter, List.mem_map, bne_iff_ne]
            exact ⟨⟨y, hy, rfl⟩, hne⟩
          · exact ⟨hw2.toExcl, fun t ht => by simp at ht⟩
      · next e w1 hrun =>
        rw [hrun] at hw1
        exact ⟨hw1, fun t ht => by simp at ht⟩

/-- With free candidates a compaction erases a free sector. -/
theorem gcCompactUntilErased_free {relaxed : Bool} (hw : Excl hs True P w) :
    let r := (gcCompactUntilErased relaxed).run w
    Excl hs True P r.2 ∧ ∀ t, r.1 = .ok t → r.2.owners.Free t :=
  compactCandidatesLoop_free hw fun x hx => hw.candidates (.inl trivial) x hx

/-! ## Garbage collection -/

omit [Opts] in
/-- The swaps of the candidates add no sector. -/
theorem mem_candidateSwaps {pos : Nat} {cs : List CompactionCandidate} {x : CompactionCandidate}
    (h : x ∈ candidateSwaps pos cs) : x ∈ cs ∨ x = {} := by
  induction pos generalizing cs with
  | zero => exact .inl h
  | succ pos ih =>
    have hget : ∀ i, cs.getD i {} ∈ cs ∨ cs.getD i {} = {} := by
      intro i
      rw [List.getD_eq_getElem?_getD]
      rcases hi : cs[i]? with _ | y
      · exact .inr rfl
      · exact .inl (List.mem_of_getElem? hi)
    unfold candidateSwaps at h
    dsimp only at h
    split at h
    · rcases ih h with h | h
      · rcases List.mem_or_eq_of_mem_set h with h | rfl
        · rcases List.mem_or_eq_of_mem_set h with h | rfl
          · exact .inl h
          · exact hget _
        · exact hget _
      · exact .inr h
    · exact .inl h

instance (f : Nat) : Keeps (ExclAt hs c P S s) (modifyFs (gcUpdateCompactionCandidate s f)) := by
  constructor
  intro w hw
  simp only [run_modifyFs, gcUpdateCompactionCandidate]
  split
  · refine { hw with candidates := ?_ }
    intro hc x hx h0
    rcases mem_candidateSwaps hx with hx | rfl
    · rcases List.mem_or_eq_of_mem_set hx with hx | rfl
      · exact hw.candidates hc x hx h0
      · exact hw.free
    · exact absurd rfl h0
  · exact hw

/-- The state of the walk is no part of the invariant. -/
instance {I : World → Prop} [FrameInv I] (f : Fs → MdWalk) :
    Keeps I (modifyFs fun fs => { fs with gcMd := f fs }) :=
  keeps_modifyFs fun _ => rfl

instance {I : World → Prop} [FrameInv I] (g : Fs → Nat) (f : Fs → MdWalk) :
    Keeps I (modifyFs fun fs => { fs with gcCursor := g fs, gcMd := f fs }) :=
  keeps_modifyFs fun _ => rfl

instance {I : World → Prop} [FrameInv I] (t : Nat) (live : Bool) : Keeps I (gcLeave t live) := by
  unfold gcLeave; infer_instance

instance {I : World → Prop} [FrameInv I] : Keeps I gcEndWalk := by
  unfold gcEndWalk; infer_instance

instance {I : World → Prop} [FrameInv I] (reader : SectorReader) (t : Nat) :
    Keeps I (gcWalkBegin reader t) := by
  unfold gcWalkBegin
  refine Keeps.bind (k := fun fs => ?_)
  split <;> infer_instance

instance {I : World → Prop} [FrameInv I] (r : MdRecord) (live : Bool) :
    Keeps I (gcNoteRecord r live) := by
  unfold gcNoteRecord; infer_instance

instance : Keeps (ExclAt hs c P S s) (gcTombstone s) := by
  unfold gcTombstone; infer_instance

instance (result : MdWalkResult) : Keeps (ExclAt hs c P S s) (gcFinishLive s result) := by
  unfold gcFinishLive; infer_instance

instance (result : MdWalkResult) : Keeps (ExclAt hs c P S s) (gcFinish s result) := by
  unfold gcFinish; infer_instance

instance (reader : SectorReader) : Keeps (ExclAt hs c P S s) (gcWalkSector reader s) := by
  unfold gcWalkSector
  refine Keeps.bind (k := fun _ => Keeps.bind (k := fun fs => Keeps.bind (k := fun r => ?_)))
  split
  · infer_instance
  · infer_instance
  · refine Keeps.bind (k := fun _ => Keeps.bind (k := fun _ => ?_))
    split
    · refine Keeps.bind (k := fun r => ?_)
      split <;> infer_instance
    · infer_instance

omit [Opts] in
/-- A program that keeps the sector free ends with it free. -/
theorem ExclAt.run {α : Type} {x : M α} {p : α → Prop} (hw : ExclAt hs c P S s w)
    (hk : Keeps (ExclAt hs c P S s) x) :
    Excl hs c P (x.run w).2 ∧
      ∀ a, (x.run w).1 = .ok a → p a → (x.run w).2.owners.Free s :=
  ⟨(hk.keeps w hw).toExcl, fun _ _ _ => (hk.keeps w hw).free⟩

/-- A collection step looks at one sector.  Unless it skips the sector, the
sector is free before and after. -/
theorem gcStep_free (useMap : Bool) (hw : Excl hs c P w) :
    let r := (gcStep useMap).run w
    Excl hs c P r.2 ∧ ∀ a, r.1 = .ok a → a.1 = .erased →
      r.2.owners.Free (normalizedDataCursor w.fs w.fs.gcCursor) := by
  unfold gcStep
  simp only [run_bind, run_getFs]
  split
  · exact ⟨hw, fun a ha he => by simp at ha; subst ha; simp at he⟩
  · next hcount =>
    simp only [run_bind]
    generalize hs' : normalizedDataCursor w.fs w.fs.gcCursor = t
    have hdata : w.owners.isData t := by
      rw [← hs', normalizedDataCursor]
      split
      · next h => exact validDataSector_iff.mp h
      · exact ⟨le_rfl, Nat.lt_of_not_le hcount⟩
    obtain ⟨hw1, hown⟩ := keeps_owners (I := Excl hs c P)
      (x := Prog.when (t ≠ w.fs.gcCursor) (modifyFs fun fs =>
        { fs with gcMd := { fs.gcMd with liveSeen := false, active := false } })) hw
    split
    · next w1 hrun =>
      rw [hrun] at hw1 hown
      simp only [run_get]
      split
      · exact ⟨(inferInstance : Keeps (Excl hs c P) (gcLeave t false)).keeps w1 hw1,
          fun a ha he => by simp [gcLeave, run_bind] at ha; subst ha; simp at he⟩
      · next hskip =>
        split
        · exact ⟨(inferInstance : Keeps (Excl hs c P) (gcLeave t true)).keeps w1 hw1,
            fun a ha he => by simp [gcLeave, run_bind] at ha; subst ha; simp at he⟩
        · next hopen =>
          have hat : ExclAt hs c P [] t w1 := by
            refine { hw1 with free := ⟨?_, ?_, ?_⟩, others := fun _ h => by simp at h }
            · exact (show w1.owners = w.owners from hown) ▸ hdata
            · simp only [Bool.or_eq_true, not_or, Bool.not_eq_true] at hskip
              exact allocCompactionReserved_eq_false.mp hskip.2
            · exact sectorIsOpenForWriting_eq_false.mp (Bool.not_eq_true _ ▸ hopen)
          refine hat.run ?_
          refine Keeps.bind (k := fun footer => Keeps.bind (k := fun v => ?_))
          split <;> infer_instance
    · next e w1 hrun =>
      rw [hrun] at hw1
      exact ⟨hw1, fun a ha => by simp at ha⟩

instance (useMap : Bool) : Keeps (Excl hs c P) (gcStep useMap) :=
  ⟨fun _ hw => (gcStep_free _ hw).1⟩

instance (n : Nat) : Keeps (Excl hs c P) (gcStepLoop n) := by
  induction n with
  | zero => unfold gcStepLoop; infer_instance
  | succ n ih => unfold gcStepLoop; infer_instance

instance : Keeps (Excl hs c P) gcStepPublic := by
  unfold gcStepPublic; infer_instance

instance (n erased : Nat) : Keeps (Excl hs c P) (gc n erased) := by
  induction n generalizing erased with
  | zero => unfold gc; infer_instance
  | succ n ih => unfold gc; infer_instance

/-- A pass of the collector ends at a free sector, if at one. -/
theorem gcPassLoop_free {useMap : Bool} {n fuel advanced : Nat} (hw : Excl hs c P w) :
    let r := (gcPassLoop useMap n fuel advanced).run w
    Excl hs c P r.2 ∧ ∀ t, r.1 = .ok (some t) → r.2.owners.Free t := by
  induction fuel generalizing advanced w with
  | zero => exact ⟨hw, fun t ht => by simp [gcPassLoop] at ht⟩
  | succ fuel ih =>
    unfold gcPassLoop
    split
    · simp only [run_bind, run_getFs]
      obtain ⟨hw1, hfree⟩ := gcStep_free useMap hw
      split
      · next a w1 hrun =>
        rw [hrun] at hw1 hfree
        split
        · next he =>
          refine ⟨hw1, ?_⟩
          intro t ht
          simp only [run_pure, Except.ok.injEq, Option.some.injEq] at ht
          exact ht ▸ hfree a rfl he
        · simp only [run_bind, run_getFs]
          split
          · exact ih hw1
          · split
            · exact ⟨hw1, fun t ht => by simp at ht⟩
            · exact ih hw1
      · next e w1 hrun =>
        rw [hrun] at hw1
        exact ⟨hw1, fun t ht => by simp at ht⟩
    · exact ⟨hw, fun t ht => by simp at ht⟩

/-- A pass starts without candidates, so the candidates it leaves are free. -/
theorem gcPass_free (useMap : Bool) (hw : Excl hs c P w) :
    let r := (gcPass useMap).run w
    Excl hs True P r.2 ∧ ∀ t, r.1 = .ok (some t) → r.2.owners.Free t := by
  unfold gcPass
  simp only [run_bind, run_getFs, run_modifyFs]
  apply gcPassLoop_free
  refine { hw with candidates := ?_ }
  intro _ x hx h0
  simp only [noCandidates, List.mem_replicate] at hx
  exact absurd (congrArg CompactionCandidate.sector hx.2) h0

/-- The collector hands out a free sector, and it leaves free candidates. -/
theorem gcUntilErased_free (hw : Excl hs c P w) :
    let r := gcUntilErased.run w
    Excl hs True P r.2 ∧ ∀ t, r.1 = .ok t → r.2.owners.Free t := by
  unfold gcUntilErased
  simp only [run_bind, run_getFs]
  split
  · next hle =>
    exact ⟨{ hw with candidates := fun _ => hw.candidates (.inr hle) }, fun t ht => by simp at ht⟩
  · simp only [run_bind]
    obtain ⟨hw1, hfree1⟩ := gcPass_free true hw
    split
    · next found w1 hrun =>
      rw [hrun] at hw1 hfree1
      cases found with
      | some t =>
        refine ⟨hw1, ?_⟩
        intro t' ht
        simp only [run_pure, Except.ok.injEq] at ht
        exact ht ▸ hfree1 t rfl
      | none =>
        dsimp only
        split
        · exact gcCompactUntilErased_free hw1
        · simp only [run_bind]
          obtain ⟨hw2, hfree2⟩ := gcPass_free false hw1
          split
          · next found w2 hrun2 =>
            rw [hrun2] at hw2 hfree2
            cases found with
            | some t =>
              refine ⟨hw2, ?_⟩
              intro t' ht
              simp only [run_pure, Except.ok.injEq] at ht
              exact ht ▸ hfree2 t rfl
            | none => exact gcCompactUntilErased_free hw2
          · next e w2 hrun2 =>
            rw [hrun2] at hw2
            exact ⟨hw2, fun t ht => by simp at ht⟩
    · next e w1 hrun =>
      rw [hrun] at hw1
      exact ⟨hw1, fun t ht => by simp at ht⟩

end Fastffs
