import Fastffs.Backends
import Fastffs.IndexArea

/-!
# The index area under the API

The allocator and the calls of the API keep `Placed`: a sector that they allocate is a
data sector, and what they append to the log is a delete or a head in a data sector.
-/

namespace Fastffs

open Prog
open Nor (Mem Byte blank)

variable [Opts] {n size c : Nat} {L : Opened} {I : World → Prop} [LogInv n size c I] {w w' : World}

/-! ## The allocator -/

section Alloc

variable {h s : Nat}

/-- A change of one handle. -/
theorem Placed.modifyFile {f : File → File} (hw : Placed n size c L I w)
    (haccess : h ∈ L.starting ++ L.handles → (f (w.files h)).access = L.access h)
    (hslot : h ∈ L.starting ++ L.handles → L.access h = .wronly → NameSlot (f (w.files h)).slot)
    (hwriter : h ∈ L.handles → L.access h = .wronly → (f (w.files h)).placed n c)
    (hres : (f (w.files h)).reservedIn n c) : Placed n size c L I ((modifyFile h f).run w).2 := by
  have hsame : SameArea (n * size) w ((Fastffs.modifyFile h f).run w).2 := ⟨id, rfl, rfl, fun _ _ => rfl, rfl⟩
  have hfile : ∀ k, ((Fastffs.modifyFile h f).run w).2.files k =
      if k = h then f (w.files k) else w.files k := fun _ => rfl
  have hinv : I ((Fastffs.modifyFile h f).run w).2 := LogInv.ofArea c hsame hw.inv
  refine ⟨hinv, hw.indexSectors, hw.sectorSize, hw.sectorCount, hw.size_ge, hw.count_le, hw.opened,
    fun k hk => ?_, fun k hk => ?_, fun k hk => ?_, fun k => ?_⟩
  · rw [hfile]
    split
    · next hkh =>
      subst hkh
      exact haccess hk
    · exact hw.access k hk
  · rw [hfile]
    split
    · next hkh =>
      subst hkh
      exact hslot hk
    · exact hw.slots k hk
  · rw [hfile]
    split
    · next hkh =>
      subst hkh
      exact hwriter hk
    · exact hw.writers k hk
  · rw [hfile]
    split
    · next hkh =>
      subst hkh
      exact hres
    · exact hw.reserved k

/-- A change of one handle before a program. -/
theorem Placed.bind_modifyFile {α : Type} {f : File → File} {x : M α} (hw : Placed n size c L I w)
    (haccess : h ∈ L.starting ++ L.handles → (f (w.files h)).access = L.access h)
    (hslot : h ∈ L.starting ++ L.handles → L.access h = .wronly → NameSlot (f (w.files h)).slot)
    (hwriter : h ∈ L.handles → L.access h = .wronly → (f (w.files h)).placed n c)
    (hres : (f (w.files h)).reservedIn n c)
    (hx : ∀ v, Placed n size c L I v → v.files h = f (w.files h) → Placed n size c L I (x.run v).2) :
    Placed n size c L I ((Fastffs.modifyFile h f >>= fun _ => x).run w).2 := by
  have hrun : (Fastffs.modifyFile h f).run w = (.ok (), ((Fastffs.modifyFile h f).run w).2) := rfl
  rw [bind_of_ok hrun]
  refine hx _ (hw.modifyFile haccess hslot hwriter hres) ?_
  change (if h = h then f (w.files h) else w.files h) = f (w.files h)
  rw [if_pos rfl]

/-- A change of a handle that moves neither its sectors nor its slot. -/
theorem placed_modifyFile {f : File → File}
    (hsame : ∀ x, (f x).current = x.current ∧ (f x).head = x.head ∧ (f x).slot = x.slot ∧ (f x).access = x.access)
    (hres : ∀ x, x.reservedIn n c → (f x).reservedIn n c) : Keeps (Placed n size c L I) (modifyFile h f) := by
  constructor
  intro w hw
  obtain ⟨h1, h2, h3, h4⟩ := hsame (w.files h)
  refine hw.modifyFile (fun hopen => h4.trans (hw.access h hopen)) (fun hopen haccess => ?_)
    (fun hopen haccess => ?_) (hres _ (hw.reserved h))
  · rw [h3]
    exact hw.slots h hopen haccess
  · rw [File.placed, h1, h2]
    exact hw.writers h hopen haccess

/-- The invariant, with one handle fixed. -/
def Holding (n size c : Nat) (L : Opened) (I : World → Prop) (h : Nat) (file : File) (w : World) : Prop :=
  Placed n size c L I w ∧ w.files h = file

instance {file : File} (used : Bool) : Keeps (Holding n size c L I h file) (modifyFs (allocMapMark s used)) :=
  ⟨fun w hw => ⟨(inferInstance : Keeps (Placed n size c L I)
    (modifyFs (allocMapMark s used))).keeps w hw.1, hw.2⟩⟩

instance {file : File} : Keeps (Holding n size c L I h file) (allocMapMarkUsed s) := by
  unfold allocMapMarkUsed; infer_instance

instance {file : File} : Keeps (Holding n size c L I h file) (allocMapMarkUnknown s) := by
  unfold allocMapMarkUnknown; infer_instance

instance {file : File} (s k : Nat) : Keeps (Holding n size c L I h file) (allocMapMarkRangeUnknown s k) := by
  induction k generalizing s with
  | zero => unfold allocMapMarkRangeUnknown; infer_instance
  | succ k ih => unfold allocMapMarkRangeUnknown; infer_instance

omit [Opts] [LogInv n size c I] in
/-- A program that looks at a handle. -/
theorem keeps_getFile {α : Type} {x : File → M α}
    (hx : ∀ file w, Holding n size c L I h file w → Placed n size c L I ((x file).run w).2) :
    Keeps (Placed n size c L I) (getFile h >>= x) :=
  ⟨fun w hw => hx (w.files h) w ⟨hw, rfl⟩⟩

instance : Keeps (Placed n size c L I) (allocReleaseReservation h) := by
  have hclear : Keeps (Placed n size c L I)
    (modifyFile h fun f => { f with reserveFirst := 0, reserveCount := 0 }) :=
    placed_modifyFile (fun _ => ⟨rfl, rfl, rfl, rfl⟩) fun _ _ hne => absurd rfl hne
  unfold allocReleaseReservation
  infer_instance

instance (hs : List Nat) (any : Bool) : Keeps (Placed n size c L I) (halveLoop hs any) := by
  induction hs generalizing any with
  | nil => unfold halveLoop; infer_instance
  | cons k rest ih =>
    unfold halveLoop
    refine keeps_getFile fun file w hw => ?_
    dsimp only
    split
    · exact (ih any).keeps w hw.1
    · refine Keeps.bind_to inferInstance (fun _ w' hw' => ?_) (fun _ hw' => hw'.1) hw
      refine hw'.1.bind_modifyFile (hw'.1.access k) (hw'.1.slots k) (hw'.1.writers k)
        (fun hne => ?_) fun v hv _ => (ih true).keeps v hv
      have hres := hw'.1.reserved k
      rw [hw'.2] at hres ⊢
      have hle : file.reserveCount / 2 ≤ file.reserveCount := Nat.div_le_self _ _
      have hkeep : file.reserveCount / 2 ≠ 0 := hne
      have hold := hres (by omega)
      refine ⟨(if_neg hkeep).symm ▸ hold.1, ?_⟩
      change (if file.reserveCount / 2 = 0 then 0 else file.reserveFirst) + file.reserveCount / 2 ≤ c
      rw [if_neg hkeep]
      omega

instance : Keeps (Placed n size c L I) halveReservations := by
  unfold halveReservations; infer_instance

/-- The reservation of a handle ends before the sector. -/
def File.reservedTo (file : File) (next : Nat) : Prop :=
  file.reserveCount ≠ 0 → file.reserveFirst + file.reserveCount = next

/-- A reservation grows inside the data sectors. -/
theorem reserveAfterLoop_area {fuel next : Nat} (hw : Placed n size c L I w)
  (hnext : (w.files h).reservedTo next) :
    Placed n size c L I ((reserveAfterLoop h fuel next).run w).2 := by
  induction fuel generalizing next w with
  | zero => exact hw
  | succ fuel ih =>
    rw [reserveAfterLoop, bind_of_ok (run_get w)]
    split
    · next hcond =>
      obtain ⟨-, hlt⟩ := hcond
      rw [hw.sectorCount] at hlt
      have hw1 := (inferInstance : Keeps (Placed n size c L I) (note (.reserve next))).keeps w hw
      rw [bind_of_ok (run_note (.reserve next) w)]
      split
      · next hcan =>
        rw [sectorCanBeReserved, Bool.and_eq_true, Bool.and_eq_true, Bool.and_eq_true] at hcan
        have hdata := inData_of_valid ⟨hw.indexSectors, hw.sectorSize, hw.sectorCount, hw.size_ge⟩ hcan.1.1.1
        have hle := hw.count_le
        have hu16 : u16 (next + 1) = next + 1 := by
          rw [u16, Nat.mod_eq_of_lt]
          rw [uint16Max] at hle
          omega
        -- the reservation after the step
        have hstep : ∀ x : File, x.reservedTo next → x.reservedIn n c →
            let y := { x with reserveFirst := if x.reserveCount = 0 then next else x.reserveFirst
                              reserveCount := x.reserveCount + 1 }
            y.reservedTo (next + 1) ∧ y.reservedIn n c := by
          intro x hto hin
          by_cases h0 : x.reserveCount = 0
          · refine ⟨fun _ => ?_, fun _ => ?_⟩
            · change (if x.reserveCount = 0 then next else x.reserveFirst) + (x.reserveCount + 1) = next + 1
              rw [if_pos h0]
              omega
            · change n ≤ (if x.reserveCount = 0 then next else x.reserveFirst) ∧
                (if x.reserveCount = 0 then next else x.reserveFirst) + (x.reserveCount + 1) ≤ c
              rw [if_pos h0]
              exact ⟨hdata.1, by omega⟩
          · have hto' := hto h0
            have hin' := hin h0
            refine ⟨fun _ => ?_, fun _ => ?_⟩
            · change (if x.reserveCount = 0 then next else x.reserveFirst) + (x.reserveCount + 1) = next + 1
              rw [if_neg h0]
              omega
            · change n ≤ (if x.reserveCount = 0 then next else x.reserveFirst) ∧
                (if x.reserveCount = 0 then next else x.reserveFirst) + (x.reserveCount + 1) ≤ c
              rw [if_neg h0]
              exact ⟨hin'.1, by omega⟩
        obtain ⟨hto, hin⟩ := hstep _ hnext (hw.reserved h)
        refine hw1.bind_modifyFile (hw.access h) (hw.slots h) (hw.writers h) hin fun v hv hfile => ?_
        have hmark := (inferInstance : Keeps (Holding n size c L I h (v.files h)) (allocMapMarkUsed next))
        refine hmark.bind_to (fun _ v' hv' => ih hv'.1 ?_) (fun _ hv' => hv'.1) ⟨hv, rfl⟩
        rw [hu16, hv'.2, hfile]
        exact hto
      · exact hw1
    · exact hw

instance : Keeps (Placed n size c L I) (reserveAfter h s) := by
  constructor
  intro w hw
  rw [reserveAfter, bind_of_ok (run_getFile h w)]
  refine reserveAfterLoop_area hw fun hne => ?_
  have hres := hw.reserved h hne
  have hle := hw.count_le
  rw [uint16Max] at hle
  rw [if_pos hne, u16, Nat.mod_eq_of_lt (by omega)]

/-! ## Allocation -/

instance (dataOff recordOff : Nat) (needsFooter : Bool) :
    Keeps (Placed n size c L I) (useAllocWindow h s dataOff recordOff needsFooter) := by
  have hwindow : Keeps (Placed n size c L I) (modifyFile h fun f => { f with
      dataOffset := dataOff, currentWriteOffset := dataOff, currentMetadataOffset := recordOff
      currentNeedsFooter := needsFooter }) :=
    placed_modifyFile (fun _ => ⟨rfl, rfl, rfl, rfl⟩) fun _ hres => hres
  unfold useAllocWindow
  infer_instance

theorem useBlankSector_yields (hs : InData n c s) : Yields (Placed n size c L I)
  (useBlankSector h s) (InData n c) := by
  rw [useBlankSector]
  exact Yields.ofKeeps.bind fun fs _ => Yields.ofKeeps.bind fun _ _ => Yields.ofKeeps.bind fun _ _ => .pure hs

/-- The sector a reservation gives is a data sector. -/
theorem tryReservedSector_yields : Yields (Placed n size c L I) (tryReservedSector h) fun a =>
    ∀ s, a.1 = some s → InData n c s := by
  have hnone : ∀ o : Option Nat, ∀ s, ((none, o) : Option Nat × Option Nat).1 = some s → InData n c s :=
    fun _ s hs => by cases hs
  rw [tryReservedSector]
  refine (Yields.get fun _ hw => hw).bind fun w hw => ?_
  refine Yields.ite (fun _ => .pure (hnone _)) fun hcount => ?_
  refine Yields.ite (fun _ => Yields.ofKeeps.bind fun _ _ => .pure (hnone _)) fun _ => ?_
  obtain ⟨h1, h2⟩ := hw.reserved h hcount
  have hdata : InData n c (w.files h).reserveFirst := ⟨h1, by omega⟩
  refine Yields.ofKeeps.bind fun res _ => ?_
  split
  · have htake : Keeps (Placed n size c L I) (modifyFile h fun f => { f with
        reserveFirst := if f.reserveCount - 1 = 0 then 0 else u16 (f.reserveFirst + 1)
        reserveCount := f.reserveCount - 1 }) := by
      constructor
      intro v hv
      refine hv.modifyFile (hv.access h) (hv.slots h) (hv.writers h) fun hne => ?_
      have hne' : (v.files h).reserveCount - 1 ≠ 0 := hne
      have hold := hv.reserved h (by omega)
      have hle := hv.count_le
      rw [uint16Max] at hle
      change n ≤ (if (v.files h).reserveCount - 1 = 0 then 0 else u16 ((v.files h).reserveFirst + 1)) ∧
        (if (v.files h).reserveCount - 1 = 0 then 0 else u16 ((v.files h).reserveFirst + 1)) +
          ((v.files h).reserveCount - 1) ≤ c
      rw [if_neg hne', u16, Nat.mod_eq_of_lt (by omega)]
      omega
    refine Yields.ofKeeps.bind fun _ _ => Yields.ofKeeps.bind fun _ _ => ?_
    refine (useBlankSector_yields hdata).bind fun sector hsector => .pure ?_
    intro s hs
    cases hs
    exact hsector
  · exact Yields.ofKeeps.bind fun _ _ => Yields.ite (fun _ => .throw _) fun _ => .pure (hnone _)

/-- The scan of an allocation ends in a data sector. -/
theorem allocSectorLoop_yields {skip : Option Nat} {fuel s : Nat} :
    Yields (Placed n size c L I) (allocSectorLoop h skip fuel s) (InData n c) := by
  induction fuel generalizing s with
  | zero => exact .throw _
  | succ fuel ih =>
    rw [allocSectorLoop]
    refine Yields.ofKeeps.bind fun w _ => ?_
    refine Yields.ite (fun _ => ih) fun _ => findSectorFreeWindow_yields.attempt.bind fun res hres => ?_
    split
    · exact ih
    · exact .throw _
    · next win =>
      have hdata := hres win rfl
      have hreserve : Keeps (Placed n size c L I) (modifyFs fun fs =>
          { fs with compactionReserve := fs.compactionReserve ++ [s] }) :=
        keeps_indexFs (fun _ => rfl) fun _ => rfl
      have hcursor : Keeps (Placed n size c L I) (modifyFs fun fs =>
          { fs with allocCursor := nextDataSector w.fs s }) :=
        keeps_indexFs (fun _ => rfl) fun _ => rfl
      refine Yields.ite (fun _ => ih) fun _ => Yields.ite (fun _ => ?_) fun _ => ?_
      · exact Yields.ofKeeps.bind fun _ _ => Yields.ofKeeps.bind fun _ _ => ih
      · exact Yields.ofKeeps.bind fun _ _ => Yields.ofKeeps.bind fun _ _ => .pure hdata

theorem allocSectorOnce_yields {skip : Option Nat} :
    Yields (Placed n size c L I) (allocSectorOnce h skip) (InData n c) := by
  rw [allocSectorOnce]
  exact Yields.ofKeeps.bind fun fs _ => Yields.ite (fun _ => .throw _) fun _ => allocSectorLoop_yields

theorem tryCompactionReserveLoop_yields {list : List Nat} :
    Yields (Placed n size c L I) (tryCompactionReserveLoop h list) (InData n c) := by
  induction list with
  | nil => exact .throw _
  | cons reserved rest ih =>
    rw [tryCompactionReserveLoop]
    refine Yields.ofKeeps.bind fun file _ => findSectorFreeWindow_yields.attempt.bind fun res hres => ?_
    split
    · exact ih
    · exact .throw _
    · next win =>
      have hdata := hres win rfl
      have hcursor : Keeps (Placed n size c L I) (modifyFs fun fs => { fs with allocCursor := reserved }) :=
        keeps_indexFs (fun _ => rfl) fun _ => rfl
      refine Yields.ite (fun _ => ih) fun _ => ?_
      refine Yields.ofKeeps.bind fun _ _ => Yields.ofKeeps.bind fun _ _ => ?_
      exact Yields.ofKeeps.bind fun _ _ => Yields.ofKeeps.bind fun _ _ => .pure hdata

omit [Opts] [LogInv n size c I] in
theorem ifNoSpace_yields {x y : M Nat} {A : Nat → Prop} (hx : Yields (Placed n size c L I) x A)
    (hy : Yields (Placed n size c L I) y A) : Yields (Placed n size c L I) (ifNoSpace x y) A := by
  rw [ifNoSpace]
  refine hx.attempt.bind fun res hres => ?_
  split
  · exact .pure (hres _ rfl)
  · exact hy
  · exact .throw _

/-- `fffs_alloc_next_sector` gives a data sector. -/
theorem allocNextSector_yields : Yields (Placed n size c L I) (allocNextSector h) (InData n c) := by
  have hscan : ∀ skip, Yields (Placed n size c L I)
      (ifNoSpace (allocSectorOnce h skip) (allocAfterHalving h skip)) (InData n c) := by
    intro skip
    refine ifNoSpace_yields allocSectorOnce_yields ?_
    rw [allocAfterHalving]
    exact Yields.ofKeeps.bind fun _ _ => Yields.ite (fun _ => allocSectorOnce_yields) fun _ => .throw _
  have hfree : ∀ skip, Yields (Placed n size c L I) (allocUnreserved h skip) (InData n c) := by
    intro skip
    rw [allocUnreserved]
    refine Yields.ite (fun _ => ?_) fun _ => hscan skip
    refine ifNoSpace_yields (ifNoSpace_yields (ifNoSpace_yields (hscan skip) ?_) ?_) ?_
    · exact gcUntilErased_yields.bind fun s hs => useBlankSector_yields hs
    · exact Yields.ofKeeps.bind fun fs _ => tryCompactionReserveLoop_yields
    · exact gcCompactUntilErased_yields.bind fun s hs => useBlankSector_yields hs
  rw [allocNextSector]
  refine tryReservedSector_yields.bind fun a ha => ?_
  have hsector : Yields (Placed n size c L I) (a.1.elim (allocUnreserved h a.2) pure) (InData n c) := by
    rcases hres : a.1 with _ | s
    · exact hfree a.2
    · exact .pure (ha s hres)
  exact hsector.bind fun s hs => Yields.ofKeeps.bind fun _ _ => .pure hs

end Alloc

/-! ## Writers -/

section Write

variable {h s : Nat}

omit [Opts] [LogInv n size c I] in
/-- What is known of an open handle. -/
theorem yields_getFile (hopen : h ∈ L.handles) : Yields (Placed n size c L I) (getFile h) fun file =>
    file.access = L.access h ∧ (L.access h = .wronly → NameSlot file.slot ∧ file.placed n c) := by
  refine ⟨fun _ hw => hw, fun w file hw hfile => ?_⟩
  cases hfile
  have hmem := List.mem_append_right L.starting hopen
  exact ⟨hw.access h hmem, fun hwrite => ⟨hw.slots h hmem hwrite, hw.writers h hopen hwrite⟩⟩

theorem flushWriteCache_area {final : Bool} (hopen : h ∈ L.handles) (hwrite : L.access h = .wronly) :
    Keeps (Placed n size c L I) (flushWriteCache h final) := by
  unfold flushWriteCache
  refine (Yields.get fun _ hw => hw).bindKeeps fun w hw => ?_
  have hflushed : ∀ k, Keeps (Placed n size c L I) (modifyFile h fun f => { f with
      currentWriteOffset := u16 (f.currentWriteOffset + k), cache := f.cache.drop k }) :=
    fun _ => placed_modifyFile (fun _ => ⟨rfl, rfl, rfl, rfl⟩) fun _ hres => hres
  have hprog : ∀ bs, Keeps (Placed n size c L I) (programAligned
      ((w.files h).current * w.fs.sectorSize + (w.files h).currentWriteOffset) bs) := by
    intro bs
    rw [hw.sectorSize]
    exact programAligned_area ((hw.writers h hopen hwrite).1.le _)
  infer_instance

instance (file : File) (sector dataLen : Nat) : Keeps (Placed n size c L I)
  (noteDataLen file sector dataLen) := by
  unfold noteDataLen; infer_instance

theorem recordExtent_area {old : File} {next : Nat} (hdata : InData n c old.current) :
    Keeps (Placed n size c L I) (recordExtent h old next) := by
  have hprog : ∀ slot type dataOff recordOff footer dataLen spanLen size' next live,
      Keeps (Placed n size c L I) (programExtentMetadata old.current slot type dataOff recordOff footer
        dataLen spanLen size' next live) := fun _ _ _ _ _ _ _ _ _ _ => programExtentMetadata_area hdata
  unfold recordExtent beginExtentMetadata writeExtentMetadata
  infer_instance

/-- A record is found in a data sector only. -/
theorem readMdForSlotBy_yields {slot : Nat} {m : MdSlotMatch} :
    Yields (Placed n size c L I) (readMdForSlotBy s slot m) fun _ => InData n c s := by
  rw [readMdForSlotBy]
  refine yields_getFs.bind fun fs hfs => Yields.ite (fun _ => .throw _) fun hvalid => ?_
  exact Yields.ofConst (inData_of_valid hfs (Bool.not_eq_false _ ▸ hvalid))

/-- Finishing a record appends at most the head of the writer. -/
theorem finishExtentMetadata_area {next spanLen : Nat} {total : Option Nat} {makeLive commit : Bool}
    (hopen : h ∈ L.handles) (hwrite : L.access h = .wronly) :
    Keeps (Placed n size c L I) (finishExtentMetadata h s next spanLen total makeLive commit) := by
  unfold finishExtentMetadata
  refine (yields_getFile hopen).bindKeeps fun file hfile => yields_getFs.bindKeeps fun fs hfs => ?_
  refine readMdForSlotBy_yields.bindKeeps fun r hdata => ?_
  have hprog : ∀ x bs, Keeps (Placed n size c L I)
      (programAligned (s * fs.sectorSize + r.recordStart + x) bs) := by
    intro x bs
    rw [hfs.2.1, Nat.add_assoc]
    exact programAligned_area (hdata.le _)
  have hlive : Keeps (Placed n size c L I)
      (programAligned (s * fs.sectorSize + r.recordStart) [lifecycleValid]) := hprog 0 _
  have hused : Keeps (Placed n size c L I) (markSectorUsed s) := markSectorUsed_area hdata
  obtain ⟨hslot, hplaced⟩ := hfile.2 hwrite
  have happend : Keeps (Placed n size c L I) (appendIndexRecord file.slot file.head) := by
    refine appendIndexRecord_area ⟨?_, .inr hplaced.2⟩
    have hlt := hslot.2
    rw [uint16Max] at hlt
    omega
  refine Keeps.bind (k := fun _ => ?_)
  cases total with
  | none => exact Keeps.bind (j := inferInstanceAs (Keeps _ (pure ())))
  | some total => exact Keeps.bind (j := hprog 11 _)

theorem flushPendingSpanHead_area {next : Nat} {final : Bool} (hopen : h ∈ L.handles)
    (hwrite : L.access h = .wronly) : Keeps (Placed n size c L I) (flushPendingSpanHead h next final) := by
  have hfinish : ∀ s next spanLen total makeLive commit,
      Keeps (Placed n size c L I) (finishExtentMetadata h s next spanLen total makeLive commit) :=
    fun _ _ _ _ _ _ => finishExtentMetadata_area hopen hwrite
  have hclear : Keeps (Placed n size c L I) (modifyFile h fun f => { f with spanHead := 0 }) :=
    placed_modifyFile (fun _ => ⟨rfl, rfl, rfl, rfl⟩) fun _ hres => hres
  unfold flushPendingSpanHead
  infer_instance

/-- The next extent of a writer is in a data sector. -/
theorem startNextExtent_area (hopen : h ∈ L.handles) (hwrite : L.access h = .wronly) :
    Keeps (Placed n size c L I) (startNextExtent h) := by
  have hflush : Keeps (Placed n size c L I) (flushWriteCache h true) := flushWriteCache_area hopen hwrite
  have hspan : ∀ next, Keeps (Placed n size c L I) (flushPendingSpanHead h next false) :=
    fun _ => flushPendingSpanHead_area hopen hwrite
  unfold startNextExtent
  refine Keeps.bind (k := fun _ => (yields_getFile hopen).bindKeeps fun old hold => ?_)
  refine allocNextSector_yields.bindKeeps fun next hnext => Keeps.bind (k := fun file => ?_)
  have hrecord : Keeps (Placed n size c L I) (recordExtent h old next) :=
    recordExtent_area (hold.2 hwrite).2.1
  have hstart : ∀ extend, Keeps (Placed n size c L I) (modifyFile h fun f => f.startExtent old next extend) := by
    intro extend
    constructor
    intro w hw
    refine hw.modifyFile (hw.access h) (hw.slots h) (fun _ _ => ?_) (hw.reserved h)
    exact ⟨hnext, (hw.writers h hopen hwrite).2⟩
  infer_instance

theorem writeLoop_area {fuel : Nat} {src : List Byte} (hopen : h ∈ L.handles) (hwrite : L.access h = .wronly) :
    Keeps (Placed n size c L I) (writeLoop h fuel src) := by
  have hflush : Keeps (Placed n size c L I) (flushWriteCache h false) := flushWriteCache_area hopen hwrite
  have hnext : Keeps (Placed n size c L I) (startNextExtent h) := startNextExtent_area hopen hwrite
  have htake : ∀ bs, Keeps (Placed n size c L I) (modifyFile h fun f => f.take bs) :=
    fun _ => placed_modifyFile (fun _ => ⟨rfl, rfl, rfl, rfl⟩) fun _ hres => hres
  induction fuel generalizing src with
  | zero => unfold writeLoop; infer_instance
  | succ fuel ih => unfold writeLoop; infer_instance

theorem write_area {src : List Byte} (hopen : h ∈ L.handles) : Keeps (Placed n size c L I) (write h src) := by
  unfold write
  refine (yields_getFile hopen).bindKeeps fun file hfile => ?_
  split
  · infer_instance
  · next hok =>
    rw [not_or, not_not, hfile.1] at hok
    exact writeLoop_area hopen hok.2

instance : Keeps (Placed n size c L I) (refreshOldHead h) := by
  have hold : ∀ head next, Keeps (Placed n size c L I)
      (modifyFile h fun f => { f with oldHead := head, oldNext := next }) :=
    fun _ _ => placed_modifyFile (fun _ => ⟨rfl, rfl, rfl, rfl⟩) fun _ hres => hres
  have hnone : Keeps (Placed n size c L I) (modifyFile h fun f => { f with oldHead := 0 }) :=
    placed_modifyFile (fun _ => ⟨rfl, rfl, rfl, rfl⟩) fun _ hres => hres
  unfold refreshOldHead
  refine Keeps.bind (k := fun file => ?_)
  split
  · refine Keeps.bind (k := fun res => ?_)
    split
    · refine Keeps.bind (k := fun res => ?_)
      split <;> infer_instance
    · infer_instance
    · infer_instance
  · infer_instance

instance (slot k : Nat) (first accounted : Bool) :
    Keeps (Placed n size c L I) (tombstoneSpan slot k s first accounted) := by
  induction k generalizing s first accounted with
  | zero => unfold tombstoneSpan; infer_instance
  | succ k ih =>
    unfold tombstoneSpan
    refine Keeps.bind (k := fun r => ?_)
    split <;> infer_instance

instance (slot depth current : Nat) (next : Option Nat) (visited : Nat) (first accounted : Bool) :
    Keeps (Placed n size c L I) (invalidateChainLoop slot depth current next visited first accounted) := by
  induction depth generalizing current next visited first accounted with
  | zero => unfold invalidateChainLoop; infer_instance
  | succ depth ih =>
    unfold invalidateChainLoop
    split
    · infer_instance
    · refine Keeps.bind (k := fun fs => Keeps.bind (k := fun res => ?_))
      split <;> infer_instance

instance (visited : Nat) : Keeps (Placed n size c L I) (modifyFs (fsinfoSampleChain visited)) :=
  keeps_indexFs (fun _ => rfl) fun _ => rfl

instance (slot head next : Nat) : Keeps (Placed n size c L I) (invalidateCommitted slot head next) := by
  unfold invalidateCommitted invalidateOldChain; infer_instance

instance (bytes : Nat) : Keeps (Placed n size c L I) (modifyFs (fsinfoNoteCommittedAdd bytes)) := by
  refine keeps_indexFs (fun fs => ?_) fun fs => ?_
  · unfold fsinfoNoteCommittedAdd
    split <;> rfl
  · unfold fsinfoNoteCommittedAdd
    split <;> rfl

theorem closeCommit_area (hopen : h ∈ L.handles) (hwrite : L.access h = .wronly) :
    Keeps (Placed n size c L I) (closeCommit h) := by
  have hflush : Keeps (Placed n size c L I) (flushWriteCache h true) := flushWriteCache_area hopen hwrite
  have hspan : Keeps (Placed n size c L I) (flushPendingSpanHead h 0 true) :=
    flushPendingSpanHead_area hopen hwrite
  have hfinish : ∀ s next spanLen total makeLive commit,
      Keeps (Placed n size c L I) (finishExtentMetadata h s next spanLen total makeLive commit) :=
    fun _ _ _ _ _ _ => finishExtentMetadata_area hopen hwrite
  have hroot : Keeps (Placed n size c L I) (finishDeferredRootMetadata h) := by
    unfold finishDeferredRootMetadata
    infer_instance
  have hwriter : Keeps (Placed n size c L I) (closeWriter h) := by
    unfold closeWriter
    refine Keeps.bind (k := fun _ => (yields_getFile hopen).bindKeeps fun file hfile => ?_)
    have hrecord : Keeps (Placed n size c L I) (recordExtent h file 0) :=
      recordExtent_area (hfile.2 hwrite).2.1
    refine Keeps.bind (k := fun _ => ?_)
    dsimp only
    infer_instance
  unfold closeCommit
  infer_instance

end Write

/-! ## Readers -/

section Read

variable {h : Nat}

/-- A reader is no writer. -/
theorem placed_reader (hread : L.access h = .rdonly) : ReaderInv h (Placed n size c L I) where
  ofMove {g} hg := by
    have hno : ¬ L.access h = .wronly := by
      rw [hread]
      exact nofun
    have hres : ∀ x, x.reservedIn n c → (g x).reservedIn n c := by
      intro x hx
      rw [File.reservedIn, (hg x).2.1, (hg x).2.2]
      exact hx
    constructor
    intro w hw
    exact hw.modifyFile (fun hmem => (hg _).1.trans (hw.access h hmem)) (fun _ hwrite => absurd hwrite hno)
      (fun _ hwrite => absurd hwrite hno) (hres _ (hw.reserved h))

theorem seek_area {offset : Int} {whence : Whence} (hopen : h ∈ L.handles) :
    Keeps (Placed n size c L I) (seek h offset whence) := by
  unfold seek
  refine (yields_getFile hopen).bindKeeps fun file hfile => ?_
  split
  · infer_instance
  · next hok =>
    rw [not_or, not_not, hfile.1] at hok
    have hreader : ReaderInv h (Placed n size c L I) := placed_reader hok.2
    infer_instance

theorem read_area {want : Nat} (hopen : h ∈ L.handles) : Keeps (Placed n size c L I) (read h want) := by
  unfold read
  refine (Yields.get fun _ hw => hw).bindKeeps fun w hw => ?_
  dsimp only
  split
  · infer_instance
  · next hok =>
    rw [not_or, not_not, hw.access h (List.mem_append_right _ hopen)] at hok
    have hreader : ReaderInv h (Placed n size c L I) := placed_reader hok.2
    infer_instance

end Read

/-! ## Names -/

section Names

omit [Opts] in
theorem nameSlot_next (slot : Nat) : NameSlot (nextSlot slot) := by
  refine ⟨nextSlot_ne_zero slot, ?_⟩
  rw [nextSlot, uint16Max]
  split_ifs with hlast
  · decide
  · have hlt := u16_lt (slot + 1)
    omega

omit [Opts] in
theorem nameSlot_candidate {base : Nat} (h : NameSlot base) (d : Nat) : NameSlot (candidateSlot base d) := by
  cases d with
  | zero => exact h
  | succ d => exact nameSlot_next _

theorem resolveProbe_yields {name : List Byte} {useCache : Bool} {fuel candidate : Nat} {free : Option Nat}
    (hc : NameSlot candidate) (hfree : ∀ s, free = some s → NameSlot s) :
    Yields (Placed n size c L I) (resolveProbe name useCache fuel candidate free) fun r => NameSlot r.slot := by
  induction fuel generalizing candidate free with
  | zero =>
    unfold resolveProbe
    split
    · exact .pure (hfree _ rfl)
    · exact .throw _
  | succ fuel ih =>
    rw [resolveProbe]
    refine Yields.ofKeeps.bind fun head _ => ?_
    split
    · refine Yields.ofKeeps.bind fun w _ => ih (nameSlot_next _) fun s hs => ?_
      split at hs
      · cases hs
        exact hc
      · exact hfree s hs
    · refine Yields.ofKeeps.bind fun root _ => Yields.ite (fun _ => .pure hc) fun _ => ?_
      exact ih (nameSlot_next _) hfree

omit [Opts] [LogInv n size c I] in
theorem resolveReachedSlot_yields {base fuel d : Nat} {occupied : List Nat} (hb : NameSlot base) :
    Yields (Placed n size c L I) (resolveReachedSlot base occupied fuel d) NameSlot := by
  induction fuel generalizing d with
  | zero => exact .throw _
  | succ fuel ih =>
    rw [resolveReachedSlot]
    exact Yields.ofKeeps.bind fun w _ => Yields.ite (fun _ => .pure (nameSlot_candidate hb d)) fun _ => ih

theorem resolveInSector_yields {name : List Byte} {useCache : Bool} {base begin_ fuel off : Nat}
  {sets : ProbeSets}
    (hb : NameSlot base) : Yields (Placed n size c L I)
      (resolveInSector name useCache base begin_ fuel off sets) fun a => ∀ r, a.2 = some r → NameSlot r.slot := by
  have hnone : ∀ sets : ProbeSets, ∀ r, ((sets, none) : ProbeSets × Option Resolved).2 = some r →
      NameSlot r.slot := fun _ r hr => by cases hr
  induction fuel generalizing off sets with
  | zero => exact .pure (hnone _)
  | succ fuel ih =>
    rw [resolveInSector]
    refine Yields.ite (fun _ => ?_) fun _ => .pure (hnone _)
    refine Yields.ofKeeps.bind fun fs _ => Yields.ofKeeps.bind fun r _ => Yields.ite (fun _ => ih) fun _ => ?_
    split
    · exact ih
    · next d hd =>
      have hslot : NameSlot r.slot := by
        rcases @candidateOffset_eq base r.slot with ⟨d', -, -, heq⟩ | ⟨hno, -⟩
        · rw [← heq]
          exact nameSlot_candidate hb d'
        · rw [hno] at hd
          cases hd
      refine Yields.ite (fun _ => ih) fun _ => Yields.ite (fun _ => ih) fun _ => ?_
      refine Yields.ite (fun _ => .throw _) fun _ => Yields.ofKeeps.bind fun root _ => ?_
      refine Yields.ite (fun _ => .pure ?_) fun _ => ih
      intro r' hr'
      cases hr'
      exact hslot

/-- `fffs_index_resolve` gives a slot that a name can have. -/
theorem indexResolve_yields {name : List Byte} {useCache : Bool} :
    Yields (Placed n size c L I) (indexResolve name useCache) fun r => NameSlot r.slot := by
  have hb : NameSlot (normalizeSlotBase (hash16 name)) := by
    obtain ⟨h1, h2⟩ := normalizeSlotBase_range (hash16 name) (u16_lt _)
    exact ⟨by omega, h2⟩
  have hscan : ∀ k sets, Yields (Placed n size c L I)
      (resolveScan name useCache (normalizeSlotBase (hash16 name)) k sets) fun r => NameSlot r.slot := by
    intro k
    induction k with
    | zero =>
      intro sets
      rw [resolveScan]
      exact (resolveReachedSlot_yields hb).bind fun slot hslot => .pure hslot
    | succ k ih =>
      intro sets
      rw [resolveScan]
      refine Yields.ofKeeps.bind fun fs _ => (resolveInSector_yields hb).bind fun a ha => ?_
      rcases a with ⟨sets', _ | r⟩
      · exact ih _
      · exact .pure (ha r rfl)
  rw [indexResolve]
  refine Yields.ite (fun _ => .throw _) fun _ => Yields.ite (fun _ => .throw _) fun _ => ?_
  split
  · exact Yields.ofKeeps.bind fun fs _ => hscan _ _
  · exact resolveProbe_yields hb fun s hs => by cases hs

theorem deleteFile_area {name : List Byte} : Keeps (Placed n size c L I) (deleteFile name) := by
  unfold deleteFile
  refine indexResolve_yields.bindKeeps fun resolved hslot => ?_
  split
  · infer_instance
  · have happend : Keeps (Placed n size c L I) (appendIndexRecord resolved.slot 0) := by
      refine appendIndexRecord_area ⟨?_, .inl ⟨rfl, hslot⟩⟩
      have hlt := hslot.2
      rw [uint16Max] at hlt
      omega
    infer_instance

end Names

/-! ## Calls of the API -/

section Calls

variable {h : Nat}

/-- The invariant between two calls. -/
def Between (n size c : Nat) (I : World → Prop) (w : World) : Prop :=
  ∃ L : Opened, L.starting = [] ∧ Placed n size c L I w

omit [Opts] [LogInv n size c I] in
/-- A call that is over starts no handle. -/
theorem Placed.between (hw : Placed n size c L I w) : Between n size c I w :=
  ⟨{ L with starting := [] }, rfl, { hw with
    access := fun k hk => hw.access k (List.mem_append_right _ hk)
    slots := fun k hk => hw.slots k (List.mem_append_right _ hk) }⟩

/-- A change of a handle that nobody knows. -/
theorem Placed.modifyFresh {f : File → File} (hw : Placed n size c L I w) (hh : h ∉ L.starting ++ L.handles)
    (hres : (f (w.files h)).reservedIn n c) : Placed n size c L I ((Fastffs.modifyFile h f).run w).2 :=
  hw.modifyFile (fun hmem => absurd hmem hh) (fun hmem => absurd hmem hh)
    (fun hmem => absurd (List.mem_append_right _ hmem) hh) hres

/-- A handle is about to be opened. -/
theorem Placed.start {f : File → File} {a : Access} (hw : Placed n size c L I w) (hs : L.starting = [])
    (hh : h ∉ L.handles) (haccess : (f (w.files h)).access = a)
    (hslot : a = .wronly → NameSlot (f (w.files h)).slot) (hres : (f (w.files h)).reservedIn n c) :
    Placed n size c ⟨L.handles, [h], Function.update L.access h a⟩ I ((Fastffs.modifyFile h f).run w).2 := by
  have hfresh : h ∉ L.starting ++ L.handles := by
    rw [hs]
    exact hh
  have hv := hw.modifyFresh hfresh hres
  have hfile : ((Fastffs.modifyFile h f).run w).2.files h = f (w.files h) := if_pos rfl
  have hself : Function.update L.access h a h = a := Function.update_self ..
  have hother : ∀ k ∈ L.handles, Function.update L.access h a k = L.access k := by
    intro k hk
    exact Function.update_of_ne (fun heq : k = h => hh (heq ▸ hk)) _ _
  refine { hv with access := fun k hk => ?_, slots := fun k hk => ?_, writers := fun k hk => ?_ }
  · rcases List.mem_append.mp hk with hk | hk
    · cases List.mem_singleton.mp hk
      exact (congrArg File.access hfile).trans (haccess.trans hself.symm)
    · exact (hv.access k (List.mem_append_right _ hk)).trans (hother k hk).symm
  · rcases List.mem_append.mp hk with hk | hk
    · cases List.mem_singleton.mp hk
      intro hwrite
      rw [hfile]
      exact hslot (hself.symm.trans hwrite)
    · intro hwrite
      exact hv.slots k (List.mem_append_right _ hk) ((hother k hk).symm.trans hwrite)
  · intro hwrite
    exact hv.writers k hk ((hother k hk).symm.trans hwrite)

/-- A handle is registered. -/
theorem Placed.register (hw : Placed n size c L I w)
    (haccess : (w.files h).access = L.access h)
    (hwrite : L.access h = .wronly → NameSlot (w.files h).slot ∧ (w.files h).placed n c) :
    Placed n size c { L with handles := h :: L.handles } I ((registerOpenFile h).run w).2 := by
  have hsame : SameArea (n * size) w ((registerOpenFile h).run w).2 := ⟨id, rfl, rfl, fun _ _ => rfl, rfl⟩
  have hinv : I ((registerOpenFile h).run w).2 := LogInv.ofArea c hsame hw.inv
  have hcases : ∀ k, k ∈ L.starting ++ h :: L.handles → k = h ∨ k ∈ L.starting ++ L.handles := by
    intro k hk
    rcases List.mem_append.mp hk with hk | hk
    · exact .inr (List.mem_append_left _ hk)
    · exact (List.mem_cons.mp hk).imp id (List.mem_append_right _)
  refine ⟨hinv, hw.indexSectors, hw.sectorSize, hw.sectorCount, hw.size_ge, hw.count_le, ?_, fun k hk => ?_,
    fun k hk => ?_, fun k hk => ?_, hw.reserved⟩
  · exact congrArg (h :: ·) hw.opened
  · rcases hcases k hk with rfl | hk
    · exact haccess
    · exact hw.access k hk
  · rcases hcases k hk with rfl | hk
    · exact fun hwr => (hwrite hwr).1
    · exact hw.slots k hk
  · rcases List.mem_cons.mp hk with rfl | hk
    · exact fun hwr => (hwrite hwr).2
    · exact hw.writers k hk

/-- `fffs_open` for writing, once the handle has its slot. -/
theorem openWrite_area {name : List Byte} {resolved : Resolved} {handles : List Nat} {access : Nat → Access}
    (haccess : access h = .wronly) (hw : Placed n size c ⟨handles, [h], access⟩ I w) :
    Between n size c I ((openWrite h name resolved).run w).2 := by
  have hold : Keeps (Placed n size c ⟨handles, [h], access⟩ I)
    (modifyFile h fun f => f.setOld resolved.root) := by
    refine placed_modifyFile (fun x => ?_) fun x hres => ?_
    · unfold File.setOld
      split <;> exact ⟨rfl, rfl, rfl, rfl⟩
    · unfold File.setOld
      split <;> exact hres
  rw [openWrite]
  refine hold.bind_to (fun _ w1 hw1 => ?_) (fun _ hw1 => hw1.between) hw
  refine allocNextSector_yields.bind_to (fun sector w2' hsector hw2' => ?_) (fun _ hw2 => hw2.between) hw1
  refine Keeps.bind_to (I := Placed n size c ⟨handles, [h], access⟩ I) inferInstance (fun _ w2 hw2 => ?_)
    (fun _ hw2 => hw2.between) hw2'
  refine Placed.between (L := ⟨h :: handles, [h], access⟩) ?_
  have hmem : h ∈ [h] ++ handles := List.mem_append_left _ (List.mem_singleton.mpr rfl)
  have hroot : ∀ x : File, (x.startRoot name sector).access = x.access ∧
      (x.startRoot name sector).slot = x.slot ∧ (x.startRoot name sector).placed n c :=
    fun _ => ⟨rfl, rfl, hsector, hsector⟩
  have hw3 := hw2.modifyFile (h := h) (f := fun f => f.startRoot name sector) (hw2.access h) (hw2.slots h)
    (fun _ _ => (hroot _).2.2) (hw2.reserved h)
  have hfile : ((modifyFile h fun f => f.startRoot name sector).run w2).2.files h =
      (w2.files h).startRoot name sector := if_pos rfl
  refine hw3.register ((congrArg File.access hfile).trans (hw2.access h hmem)) fun _ => ?_
  rw [hfile]
  exact ⟨hw2.slots h hmem haccess, (hroot _).2.2⟩

/-- `fffs_open` on a handle that is not open. -/
theorem openFile_area {name : List Byte} {flags : OpenFlags} (hw : Placed n size c L I w) (hs : L.starting = [])
    (hh : h ∉ L.handles) : Between n size c I ((openFile h name flags).run w).2 := by
  have hfresh : h ∉ L.starting ++ L.handles := by
    rw [hs]
    exact hh
  have hw1 := hw.modifyFresh (f := fun _ => { closed := false }) hfresh fun hne => absurd rfl hne
  have hrun : (modifyFile h fun _ => { closed := false }).run w =
      (.ok (), ((modifyFile h fun _ => { closed := false }).run w).2) := rfl
  rw [openFile, bind_of_ok hrun]
  split
  · exact hw1.between
  · refine indexResolve_yields.bind_to (fun resolved w2 hslot hw2 => ?_) (fun _ hw2 => hw2.between) hw1
    have hwrite : ∀ f : File → File, (f (w2.files h)).access = .wronly → (f (w2.files h)).slot = resolved.slot →
        (f (w2.files h)).reservedIn n c →
        Between n size c I ((do modifyFile h f; openWrite h name resolved : M Unit).run w2).2 := by
      intro f h1 h2 h3
      have hw3 := hw2.start hs hh h1 (fun _ => h2 ▸ hslot) h3
      have hrun3 : (modifyFile h f).run w2 = (.ok (), ((modifyFile h f).run w2).2) := rfl
      rw [bind_of_ok hrun3]
      exact openWrite_area (Function.update_self ..) hw3
    split
    · split
      · exact hw2.between
      · split
        · exact hw2.between
        · exact hwrite _ rfl rfl (hw2.reserved h)
    · next head root _ =>
      split
      · exact hw2.between
      · split
        · rw [openRead]
          refine Keeps.bind_to (I := Placed n size c L I) inferInstance (fun r w3 hw3 => ?_)
            (fun _ hw3 => hw3.between) hw2
          have hw4 := hw3.start (f := fun _ => File.ofRoot resolved.slot head root r.spanLen) hs hh rfl (fun hno => by cases hno)
            fun hne => absurd rfl hne
          have hfile : ((modifyFile h fun _ => File.ofRoot resolved.slot head root r.spanLen).run w3).2.files h =
              File.ofRoot resolved.slot head root r.spanLen := if_pos rfl
          have hself : Function.update L.access h .rdonly h = .rdonly := Function.update_self ..
          refine (hw4.register ((congrArg File.access hfile).trans hself.symm) fun hwr => ?_).between
          cases hself.symm.trans hwr
        · exact hwrite _ rfl rfl (hw2.reserved h)

/-- `fffs_close`. -/
theorem close_area (hw : Placed n size c L I w) (hopen : h ∈ L.handles) :
    Between n size c I ((close h).run w).2 := by
  rw [close]
  refine (yields_getFile hopen).bind_to (fun file w1 hfile hw1 => ?_) (fun _ hw1 => hw1.between) hw
  split
  · exact hw1.between
  · have hcommit : Keeps (Placed n size c L I)
        (if file.access = .wronly then closeCommit h else pure (.ok ()) : M (Except Status Unit)) := by
      split
      · next hwrite => exact closeCommit_area hopen (hfile.1.symm.trans hwrite)
      · infer_instance
    refine hcommit.bind_to (fun status w2 hw2 => ?_) (fun _ hw2 => hw2.between) hw1
    have hw3 : Placed n size c { L with handles := L.handles.erase h } I ((unregisterOpenFile h).run w2).2 := by
      have hsame : SameArea (n * size) w2 ((unregisterOpenFile h).run w2).2 :=
        ⟨id, rfl, rfl, fun _ _ => rfl, rfl⟩
      have hinv : I ((unregisterOpenFile h).run w2).2 := LogInv.ofArea c hsame hw2.inv
      have hsub : ∀ k ∈ L.starting ++ L.handles.erase h, k ∈ L.starting ++ L.handles := by
        intro k hk
        rcases List.mem_append.mp hk with hk | hk
        · exact List.mem_append_left _ hk
        · exact List.mem_append_right _ (List.mem_of_mem_erase hk)
      exact ⟨hinv, hw2.indexSectors, hw2.sectorSize, hw2.sectorCount, hw2.size_ge, hw2.count_le,
        congrArg (List.erase · h) hw2.opened, fun k hk => hw2.access k (hsub k hk),
        fun k hk => hw2.slots k (hsub k hk), fun k hk => hw2.writers k (List.mem_of_mem_erase hk), hw2.reserved⟩
    have hw4 : Keeps (Placed n size c { L with handles := L.handles.erase h } I)
        (modifyFile h fun f => { f with closed := true }) :=
      placed_modifyFile (fun _ => ⟨rfl, rfl, rfl, rfl⟩) fun _ hres => hres
    exact (hw4.keeps _ hw3).between

/-- Every legal call but a mount keeps the invariant. -/
theorem Between.step {op : Op} (hw : Between n size c I w) (hop : legalOp w op) (hno : ∀ o, op ≠ .remount o) :
    Between n size c I (stepOp w op) := by
  obtain ⟨L, hs, hw⟩ := hw
  have hkeeps : ∀ {α : Type} {x : M α}, Keeps (Placed n size c L I) x → Between n size c I (x.run w).2 :=
    fun hx => (hx.keeps w hw).between
  have hopened : ∀ {k}, k ∈ w.fs.openFiles → k ∈ L.handles := fun hk => hw.opened ▸ hk
  have hvoid : ∀ {α : Type} {x : M α}, Keeps (Placed n size c L I) x →
      Keeps (Placed n size c L I) (do let _ ← x : M Unit) := fun hx => Keeps.bind
  cases op with
  | openFile h name flags =>
    exact openFile_area hw hs fun hmem => hop (hw.opened.symm ▸ hmem)
  | read h want => exact hkeeps (hvoid (read_area (hopened hop)))
  | seek h offset whence => exact hkeeps (hvoid (seek_area (hopened hop)))
  | write h src => exact hkeeps (write_area (hopened hop))
  | close h => exact close_area hw (hopened hop)
  | fstat h => exact hkeeps (hvoid inferInstance)
  | stat name => exact hkeeps (hvoid inferInstance)
  | deleteFile name => exact hkeeps deleteFile_area
  | list => exact hkeeps (hvoid inferInstance)
  | fsinfo refresh refreshIfNeeded estimate => exact hkeeps (hvoid inferInstance)
  | gcStep => exact hkeeps (hvoid inferInstance)
  | gc maxSteps => exact hkeeps (hvoid inferInstance)
  | remount o => exact absurd rfl (hno o)

end Calls

end Fastffs
