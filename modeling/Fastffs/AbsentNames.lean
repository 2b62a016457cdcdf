import Fastffs.Backends

/-!
# Names that no file has

`fffs_index_resolve` serves lookups and the choice of a slot for a new file.  For
a name that no live file has it looks for a slot of the probe window that is
free and not pinned.  Without one it fails with `FFFS_ERR_NO_SPACE`, and so do
the lookups that only want to know whether the name is there.
-/

namespace Fastffs

open Prog
open Nor (Byte)

/-- The slots that a name is looked for in. -/
def nameWindow (name : List Byte) : List Nat :=
  probeWindow (normalizeSlotBase (hash16 name)) 0 (maxProbeDistance + 1)

/-- Some slot of the window of the name is free and not pinned. -/
def windowOpen (w : World) (f : Nat → Nat) (name : List Byte) : Prop :=
  ∃ slot ∈ nameWindow name, f slot = 0 ∧ slotIsPinned w slot = false

section Absent

variable [Opts] {w : World} {logs : List (List IndexRecord)} {root : Bool → Nat → RootMd}
  {name : List Byte} {useCache : Bool}

/-- A mounted file system with a legal name that no live file has. -/
structure NameAbsent (w : World) (logs : List (List IndexRecord)) (root : Bool → Nat → RootMd)
    (name : List Byte) : Prop where
  index : IndexHolds w logs
  roots : ∀ useCache, RootsReadable w useCache (logMap logs.flatten) (root useCache)
  nonempty : cstr name ≠ []
  short : (cstr name).length ≤ maxName
  absent : ∀ useCache slot, logMap logs.flatten slot ≠ 0 →
    cstr (root useCache slot).name ≠ cstr name

omit [Opts] in
theorem windowOpen_iff {f : Nat → Nat} :
    windowOpen w f name ↔ ∃ slot, (nameWindow name).find? (slotOpen w f) = some slot := by
  rw [← Option.isSome_iff_exists, List.find?_isSome]
  refine exists_congr fun slot => and_congr_right fun _ => ?_
  rw [slotOpen, Bool.and_eq_true, beq_iff_eq, Bool.not_eq_true']

/-- Resolving the name finds no file, and ends with the first open slot. -/
theorem NameAbsent.resolve (h : NameAbsent w logs root name) (useCache : Bool) :
    (indexResolve name useCache).run w =
      (freeOutcome ((nameWindow name).find? (slotOpen w (logMap logs.flatten))), w) := by
  have hnot : ∀ slot, ¬ slotNamed (logMap logs.flatten) (root useCache) name slot = true := by
    intro slot hnamed
    obtain ⟨h0, hname⟩ := slotNamed_iff.mp hnamed
    exact h.absent useCache slot h0 hname
  have hfind : (nameWindow name).find? (slotNamed (logMap logs.flatten) (root useCache) name) = none :=
    List.find?_eq_none.mpr fun slot _ => hnot slot
  have hrun := indexResolve_run h.index.log h.index.placed h.index.cache (h.roots useCache)
    (fun s _ hs _ => absurd hs (hnot s))
  rw [hrun, nameOutcome, if_neg fun h0 => h.nonempty (List.eq_nil_of_length_eq_zero h0),
    if_neg (Nat.not_lt.mpr h.short), resolveOutcome, ← nameWindow, hfind]
  rfl

/-- The outcome of resolving the name, in the two cases of the window. -/
theorem NameAbsent.resolve_cases (h : NameAbsent w logs root name) (useCache : Bool) :
    (windowOpen w (logMap logs.flatten) name ∧
        ∃ slot, (indexResolve name useCache).run w = (.ok ⟨slot, none⟩, w)) ∨
      (¬ windowOpen w (logMap logs.flatten) name ∧
        (indexResolve name useCache).run w = (.error .noSpace, w)) := by
  rw [windowOpen_iff, h.resolve useCache]
  cases (nameWindow name).find? (slotOpen w (logMap logs.flatten)) with
  | some slot => exact .inl ⟨⟨slot, rfl⟩, slot, rfl⟩
  | none => exact .inr ⟨fun ⟨_, hslot⟩ => (by cases hslot), rfl⟩

/-- `fffs_stat`. -/
theorem NameAbsent.stat_run (h : NameAbsent w logs root name) :
    ((stat name).run w).1 = .error .notFound ∧ windowOpen w (logMap logs.flatten) name ∨
      ((stat name).run w).1 = .error .noSpace ∧ ¬ windowOpen w (logMap logs.flatten) name := by
  rw [stat]
  rcases h.resolve_cases false with ⟨hopen, slot, hrun⟩ | ⟨hfull, hrun⟩
  · exact .inl ⟨by rw [bind_of_ok hrun]; rfl, hopen⟩
  · exact .inr ⟨by rw [bind_of_error hrun], hfull⟩

/-- `fffs_exists`. -/
theorem NameAbsent.exists_run (h : NameAbsent w logs root name) :
    ((exists_ name).run w).1 = .ok false ↔ windowOpen w (logMap logs.flatten) name := by
  have hattempt : ∀ {e : Status}, ((stat name).run w).1 = .error e →
      (Prog.attempt (stat name)).run w = (.ok (.error e), ((stat name).run w).2) := by
    intro e he
    rw [run_attempt, he]
  rw [exists_]
  rcases h.stat_run with ⟨hstat, hopen⟩ | ⟨hstat, hfull⟩
  · rw [bind_of_ok (hattempt hstat)]
    exact iff_of_true rfl hopen
  · rw [bind_of_ok (hattempt hstat)]
    exact iff_of_false (fun heq => by cases heq) hfull

/-- `fffs_delete_file`. -/
theorem NameAbsent.delete_run (h : NameAbsent w logs root name) :
    ((deleteFile name).run w).1 = .error .notFound ↔ windowOpen w (logMap logs.flatten) name := by
  rw [deleteFile]
  rcases h.resolve_cases false with ⟨hopen, slot, hrun⟩ | ⟨hfull, hrun⟩
  · rw [bind_of_ok hrun]
    exact iff_of_true rfl hopen
  · rw [bind_of_error hrun]
    exact iff_of_false (fun heq => by cases heq) hfull

omit [Opts] in
/-- The slots that are pinned depend on the open handles. -/
theorem slotIsPinned_files {files : Nat → File} (hsame : ∀ k ∈ w.fs.openFiles, files k = w.files k)
    (slot : Nat) : slotIsPinned { w with files := files } slot = slotIsPinned w slot := by
  rw [slotIsPinned, slotIsPinned, Bool.eq_iff_iff, List.any_eq_true, List.any_eq_true]
  refine exists_congr fun k => and_congr_right fun hk => ?_
  dsimp only
  rw [hsame k hk]

/-- The name is absent whatever handles are open. -/
theorem NameAbsent.withHandles (h : NameAbsent w logs root name) (openFiles : List Nat) (files : Nat → File) :
    NameAbsent { w with fs := { w.fs with openFiles := openFiles }, files := files } logs root name := by
  have hp := h.index.placed
  have hdata : SameData w { w with fs := { w.fs with openFiles := openFiles }, files := files } :=
    ⟨hp.plan, hp.plan, rfl, rfl, rfl, rfl, fun _ _ => rfl⟩
  refine ⟨⟨?_, ?_, h.index.cache.congr rfl rfl rfl⟩, fun useCache => (h.roots useCache).congr hdata, h.nonempty,
    h.short, h.absent⟩
  · exact { h.index.log with }
  · exact ⟨⟨hp.plan, hp.scratch, hp.size, hp.aligned, hp.fits⟩, hp.granule_pos, hp.granule_mod, hp.oldest_lt,
      hp.count_pos, @activeLast_congr w.fs _ _ _ rfl rfl hp.last⟩

/-- `fffs_open`, for reading. -/
theorem NameAbsent.open_run (h : NameAbsent w logs root name) {k : Nat} (hfresh : k ∉ w.fs.openFiles)
    {flags : OpenFlags} (hread : flags.rdonly = true) (hwrite : flags.wronly = false)
    (hknown : flags.unknown = false) :
    ((openFile k name flags).run w).1 = .error .notFound ↔
      windowOpen w (logMap logs.flatten) name := by
  -- the handle is cleared before the name is resolved
  generalize hfiles : (fun i => if i = k then ({ closed := false } : File) else w.files i) = files
  have hsame : ∀ i ∈ w.fs.openFiles, files i = w.files i := by
    intro i hi
    rw [← hfiles]
    exact if_neg fun (heq : i = k) => hfresh (heq ▸ hi)
  have hwindow : windowOpen { w with files := files } (logMap logs.flatten) name ↔
      windowOpen w (logMap logs.flatten) name := by
    refine exists_congr fun slot => and_congr_right fun _ => ?_
    rw [slotIsPinned_files hsame]
  have hclear : (modifyFile k fun _ => { closed := false }).run w = (.ok (), { w with files := files }) := by
    rw [run_modifyFile, hfiles]
  rw [openFile, bind_of_ok hclear, if_neg (by rw [hread, hwrite, hknown]; decide), hread]
  rcases (h.withHandles w.fs.openFiles files).resolve_cases true with ⟨hopen, slot, hrun⟩ | ⟨hfull, hrun⟩
  · rw [bind_of_ok hrun]
    exact iff_of_true rfl (hwindow.mp hopen)
  · rw [bind_of_error hrun]
    exact iff_of_false (fun heq => by cases heq) fun hopen => hfull (hwindow.mpr hopen)

/-- The lookups report that the name is absent exactly when some slot of its window is
free and not pinned. -/
theorem absent_name_reported (h : NameAbsent w logs root name) {k : Nat}
    (hfresh : k ∉ w.fs.openFiles) {flags : OpenFlags} (hread : flags.rdonly = true)
    (hwrite : flags.wronly = false) (hknown : flags.unknown = false) :
    (((stat name).run w).1 = .error .notFound ∧
        ((deleteFile name).run w).1 = .error .notFound ∧
        ((openFile k name flags).run w).1 = .error .notFound ∧
        ((exists_ name).run w).1 = .ok false) ↔
      windowOpen w (logMap logs.flatten) name := by
  rw [h.delete_run, h.open_run hfresh hread hwrite hknown, h.exists_run]
  rcases h.stat_run with ⟨hstat, hopen⟩ | ⟨hstat, hfull⟩
  · exact ⟨fun _ => hopen, fun _ => ⟨hstat, hopen, hopen, hopen⟩⟩
  · exact ⟨fun hall => hall.2.1, fun hopen => absurd hopen hfull⟩

end Absent

/-! ## Windows with pinned slots -/

/-- The name `a`. -/
def nameA : List Byte := [97#8]

/-- `rotatedFiles` with fifty handles on the window of the name `a`.  One of them reads `w`, whose
slot lies in the window.  The last slot is free. -/
def crowdedWindow : World :=
  { rotatedTable with
    fs := { rotatedTable.fs with openFiles := List.range maxProbeDistance }
    files := fun k => { closed := false, access := if k = 26 then .rdonly else .wronly
                        slot := candidateSlot (normalizeSlotBase (hash16 nameA)) k } }

theorem rotatedTable_absent : @NameAbsent defaultOpts rotatedTable rotatedLog
    (fun useCache s => rootAt rotatedFiles (logMap rotatedLog.flatten s) s useCache) nameA := by
  obtain ⟨b, heads, htable, hholds⟩ := rotatedTable_holds
  have hsame : SameIndex rotatedFiles rotatedTable := htable ▸ sameIndex_withCache _ _ _
  have hdata := hsame.sameData (@IndexState.placed noCacheOpts _ _ rotatedFiles_state)
  have hother : ∀ useCache, ∀ r ∈ rotatedLog.flatten, logMap rotatedLog.flatten r.slot ≠ 0 →
      cstr (rootAt rotatedFiles (logMap rotatedLog.flatten r.slot) r.slot useCache).name ≠ cstr nameA := by
    decide +kernel
  refine @NameAbsent.mk defaultOpts _ _ _ _ hholds
    (fun useCache => RootsReadable.congr (rotatedFiles_live useCache).readable hdata) (by decide) (by decide)
    fun useCache slot h0 => ?_
  obtain ⟨r, hr, rfl⟩ := logMap_record h0
  exact hother useCache r hr h0

/-- Lookups of `a` among the open handles, with a live file in its window. -/
theorem absent_name_reported_crowded :
    52538 ∈ nameWindow nameA ∧ logMap rotatedLog.flatten 52538 = 5 ∧
      (∀ d < maxProbeDistance, slotIsPinned crowdedWindow
        (candidateSlot (normalizeSlotBase (hash16 nameA)) d) = true) ∧
      ((@stat defaultOpts nameA).run crowdedWindow).1 = .error .notFound ∧
      ((@deleteFile defaultOpts nameA).run crowdedWindow).1 = .error .notFound ∧
      ((@openFile defaultOpts 50 nameA { rdonly := true }).run crowdedWindow).1 = .error .notFound ∧
      ((@exists_ defaultOpts nameA).run crowdedWindow).1 = .ok false := by
  have habsent := @NameAbsent.withHandles defaultOpts _ _ _ _ rotatedTable_absent crowdedWindow.fs.openFiles
    crowdedWindow.files
  have hfresh : 50 ∉ crowdedWindow.fs.openFiles := by decide +kernel
  have hopen : windowOpen crowdedWindow (logMap rotatedLog.flatten) nameA :=
    ⟨candidateSlot (normalizeSlotBase (hash16 nameA)) 50, mem_probeWindow.mpr ⟨50, by decide, rfl⟩,
      by decide +kernel, by decide +kernel⟩
  refine ⟨by decide +kernel, by decide +kernel, by decide +kernel, ?_⟩
  change @NameAbsent defaultOpts crowdedWindow _ _ _ at habsent
  exact (@absent_name_reported defaultOpts _ _ _ _ habsent 50 hfresh { rdonly := true } rfl rfl rfl).mpr hopen

/-- The name `f`. -/
def nameF : List Byte := [102#8]

/-- An empty log. -/
def noFiles : World := logChip [] []

/-- An empty log, and one open writer for each slot of the window of the name `f`. -/
def pinnedWindow : World :=
  { noFiles with
    fs := { noFiles.fs with openFiles := List.range (maxProbeDistance + 1) }
    files := fun k => { closed := false, access := .wronly
                        slot := candidateSlot (normalizeSlotBase (hash16 nameF)) k } }

/-- A root that no live slot has. -/
def noRoot : RootMd :=
  { name := [], size := 0, payloadDataOff := 0, payloadDataLen := 0, next := 0, spanLen := 1, cached := [] }

theorem noFiles_absent : @NameAbsent fullHeadsOpts noFiles [[], []] (fun _ _ => noRoot) nameF :=
  @NameAbsent.mk fullHeadsOpts _ _ _ _
    (@IndexHolds.mk fullHeadsOpts _ _ (by decide +kernel) (logChip_placed [] []) rfl)
    (fun _ _ h0 => absurd rfl h0) (by decide) (by decide) fun _ _ h0 => absurd rfl h0

/-- Every slot of the window is pinned by a writer that has not committed. -/
theorem absent_name_no_space :
    ¬ ∀ [Opts] (w : World) (logs : List (List IndexRecord)) (root : Bool → Nat → RootMd)
      (name : List Byte) (k : Nat), NameAbsent w logs root name → k ∉ w.fs.openFiles →
      ((stat name).run w).1 = .error .notFound ∧
        ((deleteFile name).run w).1 = .error .notFound ∧
        ((openFile k name { rdonly := true }).run w).1 = .error .notFound ∧
        ((exists_ name).run w).1 = .ok false := by
  intro hall
  have habsent := @NameAbsent.withHandles fullHeadsOpts _ _ _ _ noFiles_absent pinnedWindow.fs.openFiles
    pinnedWindow.files
  have hfresh : 51 ∉ List.range (maxProbeDistance + 1) := by decide
  have hreported := @hall fullHeadsOpts _ _ _ _ 51 habsent hfresh
  obtain ⟨slot, hmem, -, hfree⟩ := (@absent_name_reported fullHeadsOpts _ _ _ _ habsent 51 hfresh
    { rdonly := true } rfl rfl rfl).mp hreported
  have hpinned : ∀ slot ∈ nameWindow nameF, slotIsPinned pinnedWindow slot = true := by decide +kernel
  exact absurd (hpinned slot hmem) (by rw [← Bool.not_eq_false]; exact not_not.mpr hfree)

end Fastffs
