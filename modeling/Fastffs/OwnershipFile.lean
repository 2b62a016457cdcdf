import Fastffs.OwnershipAlloc

/-!
# Writers keep their sectors

The invariant of `Ownership` through `fffs_open`, `fffs_write` and `fffs_close`.  A
handle joins the owners when it is registered, it takes over the sectors the
allocator hands to it, and it leaves them when it is closed.

The reservation loop reads the compaction reserve through the allocation map
only, so a call that may reserve asks that its walks are clear.
-/

namespace Fastffs

open Prog

variable {h : Nat} {hs : List Nat} {c : Prop} {P : (Nat → File) → List Nat → Prop}
  {w w' : World}

/-! ## Handles -/

/-- A registered handle needs no place of its own in the list. -/
theorem Excl.enter (he : Excl [] c P w) (hmem : h ∈ w.fs.openFiles) : Excl [h] c P w := by
  have hsub : ∀ k ∈ [h] ++ w.fs.openFiles, k ∈ [] ++ w.fs.openFiles := by
    intro k hk
    simp only [List.cons_append, List.nil_append, List.mem_cons] at hk ⊢
    exact hk.elim (fun hkh => hkh ▸ hmem) id
  exact { he with
    reserved := ⟨fun k hk => he.reserved.data k (hsub k hk),
      fun k hk l hl => he.reserved.disjoint k (hsub k hk) l (hsub l hl),
      fun k hk => he.reserved.compaction k (hsub k hk)⟩ }

theorem Excl.leave (he : Excl hs c P w) : Excl [] c P w :=
  { he with reserved := he.reservedOpen }

/-- A handle that is not registered owns nothing. -/
theorem Excl.setUnregistered {Q : (Nat → File) → List Nat → Prop} {g : File → File}
    (he : Excl [] c P w) (hmem : h ∉ w.fs.openFiles)
    (hP : Q (w.setFile h g).files w.fs.openFiles) : Excl [] c Q (w.setFile h g) := by
  have hfile : ∀ k ∈ w.fs.openFiles, (w.setFile h g).files k = w.files k := by
    intro k hk
    rw [World.setFile_files, if_neg]
    rintro rfl
    exact hmem hk
  have hown : ∀ k ∈ w.fs.openFiles, ∀ t, ((w.setFile h g).files k).owns t → (w.files k).owns t :=
    fun k hk t ho => hfile k hk ▸ ho
  have hres : ∀ k ∈ w.fs.openFiles, ∀ t, ((w.setFile h g).files k).reserves t →
      (w.files k).reserves t :=
    fun k hk t hr => hfile k hk ▸ hr
  exact {
    indexSectors_pos := he.indexSectors_pos
    sectorCount_le := he.sectorCount_le
    nodup := he.nodup
    owned_data := fun k hk t ho => he.owned_data k hk t (hown k hk t ho)
    owned_disjoint := fun k hk l hl hkl t ho ho' =>
      he.owned_disjoint k hk l hl hkl t (hown k hk t ho) (hown l hl t ho')
    reserve_nodup := he.reserve_nodup
    reserve_data := he.reserve_data
    reserve_unowned := fun t ht k hk ho => he.reserve_unowned t ht k hk (hown k hk t ho)
    reserved := ⟨fun k hk t hr => he.reserved.data k hk t (hres k hk t hr),
      fun k hk l hl hkl t hr hr' =>
        he.reserved.disjoint k hk l hl hkl t (hres k hk t hr) (hres l hl t hr'),
      fun k hk t hr => he.reserved.compaction k hk t (hres k hk t hr)⟩
    candidates := fun hc x hx h0 =>
      have hf := he.candidates hc x hx h0
      ⟨hf.data, hf.notReserve, fun k hk ho => hf.unowned k hk (hown k hk _ ho)⟩
    events := he.events
    handles := hP }

/-- The world after a handle has been registered. -/
def World.register (w : World) (h : Nat) : World :=
  { w with fs := { w.fs with openFiles := h :: w.fs.openFiles } }

/-- Registering a handle that owns at most free sectors. -/
theorem Excl.register {Q : (Nat → File) → List Nat → Prop} (he : Excl [h] False P w)
    (hmem : h ∉ w.fs.openFiles) (hown : ∀ t, (w.files h).owns t → w.owners.Free t)
    (hP : Q w.files (h :: w.fs.openFiles)) : Excl [] False Q (w.register h) := by
  have hcase : ∀ k, k ∈ h :: w.fs.openFiles → k = h ∨ (k ≠ h ∧ k ∈ w.fs.openFiles) := by
    intro k hk
    by_cases hkh : k = h
    · exact .inl hkh
    · exact .inr ⟨hkh, (List.mem_cons.mp hk).resolve_left hkh⟩
  exact {
    indexSectors_pos := he.indexSectors_pos
    sectorCount_le := he.sectorCount_le
    nodup := List.nodup_cons.mpr ⟨hmem, he.nodup⟩
    owned_data := by
      intro k hk t ho
      rcases hcase k hk with rfl | ⟨-, hk⟩
      · exact (hown t ho).data
      · exact he.owned_data k hk t ho
    owned_disjoint := by
      intro k hk l hl hkl t ho ho'
      rcases hcase k hk with rfl | ⟨-, hk'⟩ <;> rcases hcase l hl with rfl | ⟨-, hl'⟩
      · exact hkl rfl
      · exact (hown t ho).unowned l hl' ho'
      · exact (hown t ho').unowned k hk' ho
      · exact he.owned_disjoint k hk' l hl' hkl t ho ho'
    reserve_nodup := he.reserve_nodup
    reserve_data := he.reserve_data
    reserve_unowned := by
      intro t ht k hk ho
      rcases hcase k hk with rfl | ⟨-, hk'⟩
      · exact (hown t ho).notReserve ht
      · exact he.reserve_unowned t ht k hk' ho
    reserved := ⟨he.reserved.data, he.reserved.disjoint, he.reserved.compaction⟩
    candidates := by
      intro hc x hx h0
      have hf := he.candidates hc x hx h0
      have hdata : w.fs.indexSectors ≤ x.sector ∧ x.sector < w.fs.sectorCount := hf.data
      exact hc.elim False.elim fun (hle : w.fs.sectorCount ≤ w.fs.indexSectors) => by omega
    events := he.events
    handles := hP }

/-- Taking a handle off the list. -/
theorem Excl.unregister (he : Excl [] c P w) :
    Excl [] c (fun _ l => h ∉ l)
      { w with fs := { w.fs with openFiles := w.fs.openFiles.erase h } } := by
  have hsub : ∀ k, k ∈ w.fs.openFiles.erase h → k ∈ w.fs.openFiles :=
    fun k hk => List.mem_of_mem_erase hk
  exact {
    indexSectors_pos := he.indexSectors_pos
    sectorCount_le := he.sectorCount_le
    nodup := he.nodup.erase h
    owned_data := fun k hk => he.owned_data k (hsub k hk)
    owned_disjoint := fun k hk l hl => he.owned_disjoint k (hsub k hk) l (hsub l hl)
    reserve_nodup := he.reserve_nodup
    reserve_data := he.reserve_data
    reserve_unowned := fun t ht k hk => he.reserve_unowned t ht k (hsub k hk)
    reserved := ⟨fun k hk => he.reserved.data k (hsub k hk),
      fun k hk l hl => he.reserved.disjoint k (hsub k hk) l (hsub l hl),
      fun k hk => he.reserved.compaction k (hsub k hk)⟩
    candidates := fun hc x hx h0 =>
      have hf := he.candidates hc x hx h0
      ⟨hf.data, hf.notReserve, fun k hk => hf.unowned k (hsub k hk)⟩
    events := he.events
    handles := he.nodup.not_mem_erase }

/-! ## Extents and old chains -/

variable [Opts]

section Extents

variable {I : World → Prop} [FrameInv I] [NarrowInv I] [∀ t, Keeps I (markSectorUsed t)]

instance (file : File) (sector dataLen : Nat) : Keeps I (noteDataLen file sector dataLen) := by
  unfold noteDataLen; infer_instance

instance (sector slot : Nat) (type : Nor.Byte) (dataOff recordOff : Nat) (footer : Bool)
    (dataLen spanLen size next : Nat) (live : Bool) :
    Keeps I (programExtentMetadata sector slot type dataOff recordOff footer dataLen spanLen size
      next live) :=
  keeps_programExtentMetadata ..

instance (sector dataOff recordOff : Nat) (footer : Bool) (dataLen off : Nat) :
    Keeps I (beginExtentMetadata h sector dataOff recordOff footer dataLen off) := by
  unfold beginExtentMetadata; infer_instance

instance (sector dataOff recordOff : Nat) (footer : Bool) (dataLen spanLen total next off : Nat) :
    Keeps I (writeExtentMetadata h sector dataOff recordOff footer dataLen spanLen total next
      off) := by
  unfold writeExtentMetadata; infer_instance

instance (old : File) (next : Nat) : Keeps I (recordExtent h old next) := by
  unfold recordExtent; infer_instance

instance (sector next spanLen : Nat) (size : Option Nat) (live commit : Bool) :
    Keeps I (finishExtentMetadata h sector next spanLen size live commit) := by
  have hsize : ∀ off, Keeps I (size.elim (pure ()) fun n => programAligned off (storeLe32 n)) := by
    intro off
    cases size with
    | none => exact (inferInstance : Keeps I (pure () : M Unit))
    | some n => exact (inferInstance : Keeps I (programAligned off (storeLe32 n)))
  unfold finishExtentMetadata
  refine Keeps.bind (k := fun file => Keeps.bind (k := fun fs => Keeps.bind (k := fun r => ?_)))
  exact Keeps.bind (k := fun _ => Keeps.bind)

instance : Keeps I (finishDeferredRootMetadata h) := by
  unfold finishDeferredRootMetadata; infer_instance

end Extents

instance (slot depth current : Nat) (next : Option Nat) (visited : Nat) (first accounted : Bool) :
    Keeps (Excl hs c P) (invalidateChainLoop slot depth current next visited first accounted) := by
  induction depth generalizing current next visited first accounted with
  | zero => unfold invalidateChainLoop; infer_instance
  | succ depth ih =>
    unfold invalidateChainLoop
    split
    · infer_instance
    · refine Keeps.bind (k := fun fs => Keeps.bind (k := fun r => ?_))
      split <;> infer_instance

instance (slot head next : Nat) : Keeps (Excl hs c P) (invalidateOldChain slot head next) := by
  have hnote : ∀ visited, Keeps (Excl hs c P) (note (.sample visited)) :=
    fun _ => ⟨fun _ he => he.note ⟨he.reservedOpen, trivial⟩⟩
  have hsample : ∀ visited, Keeps (Excl hs c P) (modifyFs (fsinfoSampleChain visited)) :=
    fun _ => ⟨fun _ he => { he with }⟩
  unfold invalidateOldChain; infer_instance

instance (slot head next : Nat) : Keeps (Excl hs c P) (invalidateCommitted slot head next) := by
  unfold invalidateCommitted; infer_instance

/-! ## Clear walks -/

section Since

variable {t : List Event}

instance (final : Bool) : Keeps (Since t) (flushWriteCache h final) := by
  unfold flushWriteCache; infer_instance

instance (next : Nat) (final : Bool) : Keeps (Since t) (flushPendingSpanHead h next final) := by
  unfold flushPendingSpanHead; infer_instance

instance : Keeps (Since t) (startNextExtent h) := by
  unfold startNextExtent
  refine Keeps.bind (k := fun _ => Keeps.bind (k := fun old => Keeps.bind (k := fun next => ?_)))
  exact Keeps.bind (k := fun file => Keeps.bind (k := fun _ => Keeps.bind))

omit [Opts] in
instance : Keeps (Since t) (registerOpenFile h) := ⟨fun _ hw => hw⟩

end Since

/-- The invariant, if every walk so far was clear. -/
def IfClear (I : World → Prop) (w : World) : Prop := 0 < w.fs.indexSectors ∧ (Cleared w → I w)

instance (priority := low) {I : World → Prop} {α : Type} {x : M α} [hs : ∀ t, Keeps (Since t) x]
    [hx : Keeps I x] : Keeps (IfClear I) x :=
  ⟨fun w hw => ⟨((hs w.trace).keeps w ⟨hw.1, List.suffix_refl _⟩).1,
    fun hclear => hx.keeps w (hw.2 (hclear.before hw.1))⟩⟩

/-! ## Writing -/

/-- The handle is a registered writer. -/
def Writes (h : Nat) (files : Nat → File) (opened : List Nat) : Prop :=
  h ∈ opened ∧ (files h).writing

omit [Opts] in
/-- A change of a writer that gives it nothing new. -/
theorem keeps_modifyFile {g : File → File} (hown : ∀ f t, (g f).owns t → f.owns t)
    (hres : ∀ f t, (g f).reserves t → f.reserves t) (hwr : ∀ f, f.writing → (g f).writing) :
    Keeps (Excl hs c (Writes h)) (modifyFile h g) := by
  constructor
  intro w he
  refine he.change (g := g) (fun t ho => .inl (hown _ t ho)) (he.reserved.shrink (hres _))
    ⟨he.handles.1, ?_⟩
  rw [World.setFile_files, if_pos rfl]
  exact hwr _ he.handles.2

instance (final : Bool) : Keeps (Excl hs c (Writes h)) (flushWriteCache h final) := by
  have hset : ∀ n : Nat, Keeps (Excl hs c (Writes h)) (modifyFile h fun f =>
      { f with currentWriteOffset := u16 (f.currentWriteOffset + n)
               cache := f.cache.drop n }) :=
    fun n => keeps_modifyFile (fun _ _ ho => ho) (fun _ _ hr => hr) fun _ hw => hw
  have hnote : Keeps (Excl hs c (Writes h)) (note (.flush h final)) :=
    ⟨fun _ he => he.note ⟨he.reservedOpen, trivial⟩⟩
  unfold flushWriteCache
  infer_instance

/-- A pending span that is flushed is no longer owned. -/
instance (next : Nat) (final : Bool) :
    Keeps (Excl hs c (Writes h)) (flushPendingSpanHead h next final) := by
  have hset : Keeps (Excl hs c (Writes h)) (modifyFile h fun f => { f with spanHead := 0 }) := by
    refine keeps_modifyFile (fun f t ho => ⟨ho.1, ?_⟩) (fun _ _ hr => hr) fun _ hw => hw
    rcases ho.2 with h1 | h1 | h1
    · exact .inl h1
    · exact .inr (.inl h1)
    · exact absurd rfl h1.1
  unfold flushPendingSpanHead
  infer_instance

/-- What a writer may have done to its handle between an allocation and the start
of the next extent. -/
def Pending (h : Nat) (old : File) (files : Nat → File) (opened : List Nat) : Prop :=
  Writes h files opened ∧ (files h).head = old.head ∧ (files h).current = old.current ∧
    ((files h).spanHead = old.spanHead ∨ (files h).spanHead = 0)

/-- A free sector stays free when a pending span is flushed. -/
theorem keeps_flushPendingSpanHead_at {old : File} {s : Nat} (next : Nat) (final : Bool) :
    Keeps (ExclAt hs c (Pending h old) [] s) (flushPendingSpanHead h next final) := by
  have hset : Keeps (ExclAt hs c (Pending h old) [] s)
      (modifyFile h fun f => { f with spanHead := 0 }) := by
    constructor
    intro w he
    have hown : ∀ k t, ((w.setFile h fun f => { f with spanHead := 0 }).files k).owns t →
        (w.files k).owns t := by
      intro k t ho
      rw [World.setFile_files] at ho
      split at ho
      · refine ⟨ho.1, ?_⟩
        rcases ho.2 with h1 | h1 | h1
        · exact .inl h1
        · exact .inr (.inl h1)
        · exact absurd rfl h1.1
      · exact ho
    have hself := fun t ho => hown h t (by rw [World.setFile_files, if_pos rfl]; exact ho)
    have he' : Excl hs c (Pending h old) (w.setFile h fun f => { f with spanHead := 0 }) := by
      refine he.change (fun t ho => .inl (hself t ho)) (he.reserved.shrink fun _ hr => hr) ?_
      obtain ⟨⟨hmem, hwr⟩, hhead, hcur, -⟩ := he.handles
      refine ⟨⟨hmem, ?_⟩, ?_, ?_, .inr ?_⟩
      · rw [World.setFile_files, if_pos rfl]
        exact hwr
      · rw [World.setFile_files, if_pos rfl]
        exact hhead
      · rw [World.setFile_files, if_pos rfl]
        exact hcur
      · rw [World.setFile_files, if_pos rfl]
    exact { he' with
      free := ⟨he.free.data, he.free.notReserve, fun k hk ho => he.free.unowned k hk (hown k s ho)⟩
      others := fun t ht => by simp at ht }
  unfold flushPendingSpanHead
  infer_instance

/-- The allocator, for a registered writer. -/
theorem allocNextSector_writes (he : Excl [h] False (Writes h) w) :
    let r := (allocNextSector h).run w
    Cleared r.2 → Excl [h] False (Pending h (w.files h)) r.2 ∧ ∀ s, r.1 = .ok s → r.2.owners.Free s := by
  have he0 : Excl [h] False (Cores (fun k => (w.files k).core) w.fs.openFiles) w :=
    { he with handles := ⟨fun _ => rfl, rfl⟩ }
  intro r hclear
  obtain ⟨he1, hfree⟩ := allocNextSector_free (h := h) (q := fun k => (w.files k).core)
    he.handles.2 he0 hclear
  refine ⟨he1.mono fun f l hP => ?_, hfree⟩
  obtain ⟨hcore, rfl⟩ := hP
  have hc := hcore h
  refine ⟨⟨he.handles.1, (File.writing_of_core hc).mpr he.handles.2⟩, ?_⟩
  simp only [File.core, Core.mk.injEq] at hc
  exact ⟨hc.2.2.1, hc.2.2.2.1, .inl hc.2.2.2.2.1⟩

/-- The rest of `start_next_extent` makes the writer own the sector it was given. -/
theorem nextExtent_writes {old : File} {next : Nat} (hat : ExclAt [h] False (Pending h old) [] next w) :
    Excl [h] False (Writes h) ((do
      let file ← getFile h
      Prog.when (next = old.current + 1) (note (.narrow [pendingSpan file]))
      let canExtendSpan := decide (next = old.current + 1) && decide (pendingSpanLen file < uint16Max)
      recordExtent h old next
      Prog.when (canExtendSpan = false) (flushPendingSpanHead h next false)
      modifyFile h fun f => f.startExtent old next canExtendSpan : M Unit).run w).2 := by
  rw [bind_of_ok (run_getFile h w)]
  generalize hext : (decide (next = old.current + 1) &&
    decide (pendingSpanLen (w.files h) < uint16Max)) = extend
  have hflush : Keeps (ExclAt [h] False (Pending h old) [] next) (flushPendingSpanHead h next false) :=
    keeps_flushPendingSpanHead_at next false
  refine Keeps.bind_to (I := ExclAt [h] False (Pending h old) [] next) inferInstance
    (fun _ w1 hat1 => ?_) (fun _ hat1 => hat1.toExcl.mono fun _ _ hP => hP.1) hat
  refine Keeps.bind_to (I := ExclAt [h] False (Pending h old) [] next) inferInstance
    (fun _ w2 hat2 => ?_) (fun _ hat2 => hat2.toExcl.mono fun _ _ hP => hP.1) hat1
  refine Keeps.bind_to (I := ExclAt [h] False (Pending h old) [] next) inferInstance
    (fun _ w3 hat3 => ?_) (fun _ hat3 => hat3.toExcl.mono fun _ _ hP => hP.1) hat2
  obtain ⟨⟨hmem, hwr⟩, hhead, hcur, hspan⟩ := hat3.handles
  refine hat3.change (g := fun f => f.startExtent old next extend)
    (fun t ho => ?_) (hat3.reserved.shrink fun _ hr => hr) ⟨hmem, ?_⟩
  · rcases ho.2 with h1 | h1 | ⟨h0, h1, h2⟩
    · exact .inl ⟨hwr, .inl h1⟩
    · exact .inr ⟨id, (show next = t from h1) ▸ hat3.free⟩
    · dsimp only [File.startExtent] at h0 h1 h2
      by_cases htn : t = next
      · exact .inr ⟨id, htn ▸ hat3.free⟩
      · left
        cases extend with
        | false =>
          simp only [Bool.false_eq_true, if_false] at h0 h1
          omega
        | true =>
          simp only [if_true] at h0 h1
          simp only [Bool.and_eq_true, decide_eq_true_eq] at hext
          refine ⟨hwr, .inr (.inr ⟨h0, h1, ?_⟩)⟩
          omega
  · rw [World.setFile_files, if_pos rfl]
    exact hwr

/-- Starting the next extent. -/
theorem keeps_startNextExtent : Keeps (IfClear (Excl [h] False (Writes h))) (startNextExtent h) := by
  constructor
  intro w hw
  have hgrows : Keeps (Since w.trace) (startNextExtent h) := inferInstance
  refine ⟨(hgrows.keeps w ⟨hw.1, List.suffix_refl _⟩).1, fun hclear => ?_⟩
  have he1 := (inferInstance : Keeps (Excl [h] False (Writes h)) (flushWriteCache h true)).keeps w
    (hw.2 (hclear.before hw.1))
  unfold startNextExtent at hclear ⊢
  rcases hrun1 : (flushWriteCache h true).run w with ⟨r1, w1⟩
  rw [hrun1] at he1
  cases r1 with
  | error e =>
    rw [bind_of_error hrun1]
    exact he1
  | ok _ =>
    rw [bind_of_ok hrun1, bind_of_ok (run_getFile h w1)] at hclear ⊢
    obtain ⟨he2, hfree⟩ := allocNextSector_writes he1
      (Cleared.first he1.indexSectors_pos (fun _ _ => inferInstance) hclear)
    rcases hrun2 : (allocNextSector h).run w1 with ⟨r2, w2⟩
    rw [hrun2] at he2 hfree
    cases r2 with
    | error e =>
      rw [bind_of_error hrun2]
      exact he2.mono fun _ _ hP => hP.1
    | ok next =>
      rw [bind_of_ok hrun2]
      exact nextExtent_writes { he2 with free := hfree next rfl, others := fun t ht => by simp at ht }

/-- Writing bytes. -/
theorem keeps_writeLoop (fuel : Nat) (src : List Nor.Byte) :
    Keeps (IfClear (Excl [h] False (Writes h))) (writeLoop h fuel src) := by
  have hnext := keeps_startNextExtent (h := h)
  have htake : ∀ bs, Keeps (Excl [h] False (Writes h)) (modifyFile h fun f => f.take bs) :=
    fun bs => keeps_modifyFile (fun _ _ ho => ho) (fun _ _ hr => hr) fun _ hw => hw
  induction fuel generalizing src with
  | zero => unfold writeLoop; infer_instance
  | succ fuel ih =>
    unfold writeLoop
    split
    · infer_instance
    · refine Keeps.bind (k := fun file => Keeps.bind (k := fun _ => Keeps.bind (k := fun file => ?_)))
      exact Keeps.bind (k := fun _ => Keeps.bind)

/-- The invariant between two calls. -/
def Exclusive (w : World) : Prop := Excl [] False (fun _ _ => True) w

omit [Opts] in
theorem Excl.exclusive (he : Excl hs c P w) : Exclusive w :=
  ((he.leave.weaken False.elim).mono fun _ _ _ => trivial)

/-- `fffs_write`. -/
theorem write_exclusive (src : List Nor.Byte) (he : Exclusive w) (hmem : h ∈ w.fs.openFiles)
    (hclear : Cleared ((write h src).run w).2) : Exclusive ((write h src).run w).2 := by
  unfold write at hclear ⊢
  rw [bind_of_ok (run_getFile h w)] at hclear ⊢
  split at hclear
  · next hguard =>
    rw [if_pos hguard]
    exact he
  · next hguard =>
    rw [if_neg hguard]
    simp only [not_or, Bool.not_eq_true, not_not] at hguard
    have hwr : Excl [h] False (Writes h) w := { Excl.enter he hmem with handles := ⟨hmem, hguard⟩ }
    exact (((keeps_writeLoop (src.length + 1) src).keeps w ⟨he.indexSectors_pos, fun _ => hwr⟩).2
      hclear).exclusive

/-! ## Closing -/

instance : Keeps (Excl hs c (Writes h)) (refreshOldHead h) := by
  have hset : ∀ head next : Nat, Keeps (Excl hs c (Writes h)) (modifyFile h fun f =>
      { f with oldHead := head, oldNext := next }) :=
    fun _ _ => keeps_modifyFile (fun _ _ ho => ho) (fun _ _ hr => hr) fun _ hw => hw
  have hzero : Keeps (Excl hs c (Writes h)) (modifyFile h fun f => { f with oldHead := 0 }) :=
    keeps_modifyFile (fun _ _ ho => ho) (fun _ _ hr => hr) fun _ hw => hw
  unfold refreshOldHead
  refine Keeps.bind (k := fun file => ?_)
  split
  · refine Keeps.bind (k := fun r => ?_)
    split
    · refine Keeps.bind (k := fun r => ?_)
      split <;> infer_instance
    · infer_instance
    · infer_instance
  · infer_instance

instance : Keeps (Excl hs c (Writes h)) (closeWriter h) := by
  unfold closeWriter
  refine Keeps.bind (k := fun _ => Keeps.bind (k := fun file => Keeps.bind (k := fun _ => ?_)))
  dsimp only
  infer_instance

/-- `fffs_close`. -/
theorem close_exclusive (he : Exclusive w) (hmem : h ∈ w.fs.openFiles) :
    Exclusive ((close h).run w).2 := by
  -- the end of a close, for readers and writers
  have hend : ∀ {w1 : World} {status : Except Status Unit}, Exclusive w1 →
      Exclusive ((do
        unregisterOpenFile h
        modifyFile h fun f => { f with closed := true }
        Prog.ofExcept status : M Unit).run w1).2 := by
    intro w1 status he1
    simp only [unregisterOpenFile, run_bind, run_modifyFs, run_modifyFile, run_ofExcept]
    exact (Excl.unregister he1).setUnregistered (Q := fun _ _ => True)
      (g := fun f => { f with closed := true }) (Excl.unregister (h := h) he1).handles trivial
  unfold close
  simp only [run_bind, run_getFile]
  split
  · exact he
  · next hclosed =>
    split
    · next hacc =>
      have hwr : Excl [] False (Writes h) w :=
        { he with handles := ⟨hmem, Bool.not_eq_true _ ▸ hclosed, hacc⟩ }
      have he1 := (inferInstance : Keeps (Excl [] False (Writes h)) (closeWriter h)).keeps w hwr
      simp only [closeCommit, run_bind, run_attempt]
      generalize hr : (closeWriter h).run w = r at he1
      obtain ⟨hmem1, hwr1⟩ := he1.handles
      have hcores : Excl [] False (Cores (fun k => (r.2.files k).core) r.2.fs.openFiles) r.2 :=
        { he1 with handles := ⟨fun _ => rfl, rfl⟩ }
      obtain ⟨w2, hrun2, he2, -, -⟩ := allocReleaseReservation_excl (h := h) hcores
      simp only [hrun2, run_pure]
      exact hend he2.exclusive
    · exact hend he

/-! ## Opening -/

/-- The handle is not registered and reserves nothing. -/
def Fresh (h : Nat) (files : Nat → File) (opened : List Nat) : Prop :=
  h ∉ opened ∧ (files h).closed = false ∧ (files h).reserveCount = 0

omit [Opts] in
/-- Filling a fresh handle. -/
theorem keeps_modifyFresh {g : File → File}
    (hclosed : ∀ f, f.closed = false → (g f).closed = false)
    (hcount : ∀ f, f.reserveCount = 0 → (g f).reserveCount = 0) :
    Keeps (Excl [] c (Fresh h)) (modifyFile h g) := by
  constructor
  intro w he
  obtain ⟨hmem, h1, h2⟩ := he.handles
  refine he.setUnregistered hmem ⟨hmem, ?_⟩
  rw [World.setFile_files, if_pos rfl]
  exact ⟨hclosed _ h1, hcount _ h2⟩

omit [Opts] in
/-- A fresh handle reserves nothing, so it may allocate. -/
theorem Excl.allocating (he : Excl [] c (Fresh h) w) : Excl [h] c (Fresh h) w := by
  have hnone : ∀ s, ¬ (w.files h).reserves s := by
    intro s hr
    have h1 := hr.2.2
    rw [he.handles.2.2] at h1
    exact absurd hr.2.1 (by omega)
  have hcase : ∀ k ∈ [h] ++ w.fs.openFiles, ∀ s, (w.files k).reserves s → k ∈ w.fs.openFiles := by
    intro k hk s hr
    rcases List.mem_cons.mp hk with rfl | hk
    · exact absurd hr (hnone s)
    · exact hk
  exact { he with
    reserved := ⟨fun k hk s hr => he.reserved.data k (hcase k hk s hr) s hr,
      fun k hk l hl hkl s hr hr' =>
        he.reserved.disjoint k (hcase k hk s hr) l (hcase l hl s hr') hkl s hr hr',
      fun k hk s hr => he.reserved.compaction k (hcase k hk s hr) s hr⟩ }

omit [Opts] in
/-- The read branch of `fffs_open`. -/
theorem openRead_exclusive (slot head : Nat) (root : RootMd) (he : Excl [] False (Fresh h) w) :
    Exclusive ((openRead h slot head root).run w).2 := by
  unfold openRead
  refine Keeps.bind_to (I := Excl [] False (Fresh h)) inferInstance (fun r w1 he1 => ?_)
    (fun _ => Excl.exclusive) he
  have hfill : Keeps (Excl [] False (Fresh h))
      (modifyFile h fun _ => File.ofRoot slot head root r.spanLen) :=
    keeps_modifyFresh (fun _ _ => rfl) fun _ _ => rfl
  have he2 := (hfill.keeps w1 he1).allocating
  have hown : ∀ t, ¬ (File.ofRoot slot head root r.spanLen).owns t := by
    rintro t ⟨⟨-, hacc⟩, -⟩
    simp [File.ofRoot] at hacc
  refine (he2.register (Q := fun _ _ => True) he2.handles.1 (fun t ho => ?_) trivial).exclusive
  simp only [run_modifyFile, if_true] at ho
  exact absurd ho (hown t)

/-- The write branch of `fffs_open`. -/
theorem openWrite_exclusive (name : List Nor.Byte) (resolved : Resolved) (he : Excl [] False (Fresh h) w)
    (hacc : (w.files h).access = .wronly) (hclear : Cleared ((openWrite h name resolved).run w).2) :
    Exclusive ((openWrite h name resolved).run w).2 := by
  have hcore : ∀ f : File, (f.setOld resolved.root).core = f.core ∧
      (f.setOld resolved.root).reserveCount = f.reserveCount := by
    intro f
    rcases resolved.root with _ | ⟨head, root⟩ <;> exact ⟨rfl, rfl⟩
  have hclosed : ∀ f : File, (f.setOld resolved.root).closed = f.closed :=
    fun f => congrArg Core.closed (hcore f).1
  have hset : Keeps (Excl [] False (Fresh h)) (modifyFile h fun f => f.setOld resolved.root) :=
    keeps_modifyFresh (fun f hf => (hclosed f).trans hf) fun f hf => (hcore f).2.trans hf
  have he1 := (hset.keeps w he).allocating
  unfold openWrite at hclear ⊢
  rw [run_modifyFile_eq] at he1
  rw [bind_of_ok (run_modifyFile_eq w h _)] at hclear ⊢
  generalize hw1 : w.setFile h (fun f => f.setOld resolved.root) = w1 at he1 hclear ⊢
  obtain ⟨hmem, hcl, -⟩ := he1.handles
  have hacc1 : (w1.files h).access = .wronly := by
    rw [← hw1, World.setFile_files, if_pos rfl]
    exact (congrArg Core.access (hcore _).1).trans hacc
  obtain ⟨he2, hfree⟩ := allocNextSector_free (h := h) (q := fun k => (w1.files k).core)
    ⟨hcl, hacc1⟩ { he1 with handles := ⟨fun _ => rfl, rfl⟩ }
    (Cleared.first he1.indexSectors_pos (fun _ _ => inferInstance) hclear)
  simp only [run_bind]
  split
  · next s w0 hrun =>
    rw [hrun] at he2 hfree
    obtain ⟨w2, hnote, hnoted, hsame⟩ : ∃ w2, (note (.narrow [1 + (cstr name).length + 1])).run w0
      = (.ok (), w2) ∧
        Excl [h] False (Cores (fun k => (w1.files k).core) w1.fs.openFiles) w2 ∧ w2.owners = w0.owners :=
      ⟨_, rfl, NarrowInv.narrow he2, rfl⟩
    rw [hnote]
    replace he2 := hnoted
    replace hfree : ∀ t, (Except.ok s : Except Status Nat) = .ok t → w2.owners.Free t :=
      fun t ht => hsame ▸ hfree t ht
    have hopen : w2.fs.openFiles = w1.fs.openFiles := he2.handles.2
    have hown : ∀ t, ((w2.files h).startRoot name s).owns t → w2.owners.Free t := by
      rintro t ⟨-, h1 | h1 | ⟨h0, h1, h2⟩⟩
      · exact h1 ▸ hfree s rfl
      · exact h1 ▸ hfree s rfl
      · have hts : t = s := le_antisymm h2 h1
        exact hts ▸ hfree s rfl
    have he3 : Excl [h] False (fun _ l => h ∉ l) (w2.setFile h fun f => f.startRoot name s) :=
      he2.change (fun t ho => .inr ⟨id, hown t ho⟩) (he2.reserved.shrink fun _ hr => hr)
        (hopen ▸ hmem)
    refine (he3.register (Q := fun _ _ => True) he3.handles (fun t ho => ?_) trivial).exclusive
    rw [World.setFile_files, if_pos rfl] at ho
    have hf := hown t ho
    refine ⟨hf.data, hf.notReserve, fun k hk ho' => ?_⟩
    have hkh : k ≠ h := fun hkh => he3.handles (hkh ▸ hk)
    change ((w2.setFile h fun f => f.startRoot name s).files k).owns t at ho'
    rw [World.setFile_files, if_neg hkh] at ho'
    exact hf.unowned k hk ho'
  · next e w2 hrun =>
    rw [hrun] at he2
    exact he2.exclusive

/-- `fffs_open`. -/
theorem openFile_exclusive (name : List Nor.Byte) (flags : OpenFlags) (he : Exclusive w)
    (hmem : h ∉ w.fs.openFiles) (hclear : Cleared ((openFile h name flags).run w).2) :
    Exclusive ((openFile h name flags).run w).2 := by
  have hopened : Excl [] False (Fresh h) (w.setFile h fun _ => { closed := false }) := by
    refine Excl.setUnregistered (P := fun _ _ => True) he hmem ⟨hmem, ?_⟩
    rw [World.setFile_files, if_pos rfl]
    exact ⟨rfl, rfl⟩
  have hwrite : ∀ {w1 : World} (resolved : Resolved) (g : File → File), Excl [] False (Fresh h) w1 →
      (∀ f, (g f).closed = f.closed ∧ (g f).reserveCount = f.reserveCount ∧
        (g f).access = .wronly) → Cleared ((openWrite h name resolved).run (w1.setFile h g)).2 →
      Exclusive ((openWrite h name resolved).run (w1.setFile h g)).2 := by
    intro w1 resolved g he1 hg
    have hfill : Keeps (Excl [] False (Fresh h)) (modifyFile h g) :=
      keeps_modifyFresh (fun f hf => (hg f).1.trans hf) fun f hf => (hg f).2.1.trans hf
    refine openWrite_exclusive name resolved (hfill.keeps w1 he1) ?_
    rw [World.setFile_files, if_pos rfl]
    exact (hg _).2.2
  unfold openFile at hclear ⊢
  rw [bind_of_ok (run_modifyFile_eq w h _)] at hclear ⊢
  split at hclear
  · next hflags =>
    rw [if_pos hflags]
    exact hopened.exclusive
  · next hflags =>
    rw [if_neg hflags]
    refine Keeps.bind_to (I := Excl [] False (Fresh h)) (J := fun v => Cleared v → Exclusive v) inferInstance
      (fun resolved w1 he1 => ?_) (fun _ he1 _ => he1.exclusive) hopened hclear
    split
    · split
      · exact fun _ => he1.exclusive
      · split
        · exact fun _ => he1.exclusive
        · exact hwrite resolved (fun f => { f with access := .wronly, slot := resolved.slot })
            he1 fun _ => ⟨rfl, rfl, rfl⟩
    · next head root _ =>
      split
      · exact fun _ => he1.exclusive
      · split
        · exact fun _ => openRead_exclusive _ _ _ he1
        · exact hwrite resolved
            (fun f => { f with access := .wronly, slot := resolved.slot, head := head })
            he1 fun _ => ⟨rfl, rfl, rfl⟩

end Fastffs
