import Fastffs.RamIndex

/-!
# The geometry that discovery finds

`fffs_find_index_sequence` probes sector sizes in a fixed order, and for a size before
the right one it reads file data as index headers.  It finds the formatted geometry in a
state of a run exactly when no such size has a look-alike (`geometry_found`).
-/

namespace Fastffs

open Prog
open Nor (Mem Byte blank)

/-! ## Look-alikes -/

/-- The bytes at the second sector of size `shift` read as an index header of this size,
and so does every valid header in the index sectors that it claims. -/
def lookAlike (m : Mem) (shift : Nat) : Prop :=
  sectorSizeOf shift + headerSize ≤ m.size ∧
    ∃ hdr, headerAt m (sectorSizeOf shift) = some hdr ∧ hdr.sectorShift = shift ∧
      hdr.indexSectors ≤ m.size / sectorSizeOf shift ∧
      ∀ i < hdr.indexSectors, ∀ other, headerAt m (i * sectorSizeOf shift) = some other →
        other.indexSectors = hdr.indexSectors ∧ other.sectorShift = shift

/-- No sector size that is probed before `shift` has a look-alike. -/
def noLookAlikes (m : Mem) (shift : Nat) : Prop :=
  ∀ s ≤ maxSectorShift, probeTurn s < probeTurn shift → m.size % sectorSizeOf s = 0 → ¬ lookAlike m s

section Scan

variable {m : Mem} {n shift i : Nat}

/-- The scan of the headers ends unless there is one of another geometry. -/
theorem headerScan_isSome : (headerScan m n shift i).isSome = true ↔
    ∀ j < i, ∀ other, headerAt m (j * sectorSizeOf shift) = some other →
      other.indexSectors = n ∧ other.sectorShift = shift := by
  induction i with
  | zero => exact ⟨(fun _ _ hno => by cases hno), fun _ => rfl⟩
  | succ i ih =>
    cases hscan : headerScan m n shift i with
    | none =>
      rw [headerScan, hscan]
      rw [hscan] at ih
      refine ⟨(fun hno => by cases hno), fun hall => ?_⟩
      exact ih.mpr fun j hj => hall j (Nat.lt_succ_of_lt hj)
    | some scan =>
      rw [headerScan_succ hscan]
      rw [hscan] at ih
      have hbelow := ih.mp rfl
      have hsplit : (∀ j < i + 1, ∀ other, headerAt m (j * sectorSizeOf shift) = some other →
          other.indexSectors = n ∧ other.sectorShift = shift) ↔
          ∀ other, headerAt m (i * sectorSizeOf shift) = some other →
            other.indexSectors = n ∧ other.sectorShift = shift := by
        refine ⟨fun hall => hall i (Nat.lt_succ_self i), fun hlast j hj => ?_⟩
        rcases Nat.lt_succ_iff_lt_or_eq.mp hj with hlt | rfl
        · exact hbelow j hlt
        · exact hlast
      rw [hsplit]
      cases hhdr : headerAt m (i * sectorSizeOf shift) with
      | none => exact ⟨(fun _ _ hno => by cases hno), fun _ => rfl⟩
      | some hdr =>
        dsimp only
        split
        · next hne =>
          refine ⟨(fun hno => by cases hno), fun hall => ?_⟩
          obtain ⟨h1, h2⟩ := hall hdr rfl
          exact absurd hne (by simp [h1, h2])
        · next heq =>
          rw [not_or, not_not, not_not] at heq
          refine ⟨fun _ other hother => ?_, fun _ => rfl⟩
          cases hother
          exact heq

/-- A scan that has met a header has a best one. -/
theorem headerScan_best {scan : HeaderScan} (h : headerScan m n shift i = some scan) {j : Nat} (hj : j < i)
    {hdr : IndexHeader} (hhdr : headerAt m (j * sectorSizeOf shift) = some hdr) : scan.best ≠ none := by
  induction i generalizing scan with
  | zero => cases hj
  | succ i ih =>
    cases hscan : headerScan m n shift i with
    | none =>
      rw [headerScan, hscan] at h
      cases h
    | some prev =>
      rw [headerScan_succ hscan] at h
      rcases Nat.lt_succ_iff_lt_or_eq.mp hj with hlt | rfl
      · have hprev := ih hscan hlt
        split at h
        · cases h
          exact hprev
        · split at h
          · cases h
          · cases h
            obtain ⟨best, hbest⟩ := Option.ne_none_iff_exists'.mp hprev
            dsimp only
            rw [hbest, considerIndexHeader]
            split <;> simp
      · rw [hhdr] at h
        dsimp only at h
        split at h
        · cases h
        · cases h
          dsimp only
          cases prev.best with
          | none => simp [considerIndexHeader]
          | some best =>
            rw [considerIndexHeader]
            split <;> simp

/-- The sequence of a geometry with a header of it. -/
theorem sequenceAt_isSome {j : Nat} (hj : j < n) {hdr : IndexHeader}
    (hhdr : headerAt m (j * sectorSizeOf shift) = some hdr) :
    (sequenceAt m n shift).isSome = true ↔
      ∀ i < n, ∀ other, headerAt m (i * sectorSizeOf shift) = some other →
        other.indexSectors = n ∧ other.sectorShift = shift := by
  rw [← headerScan_isSome, sequenceAt]
  cases hscan : headerScan m n shift n with
  | none => exact Iff.rfl
  | some scan =>
    obtain ⟨⟨active, serial⟩, hbest⟩ := Option.ne_none_iff_exists'.mp (headerScan_best hscan hj hhdr)
    obtain ⟨serials, best⟩ := scan
    dsimp only at hbest
    subst hbest
    exact ⟨fun _ => rfl, fun _ => rfl⟩

/-- What discovery makes of the second sector. -/
theorem discovered_isSome : (discovered m shift (sectorSizeOf shift)).isSome = true ↔ lookAlike m shift := by
  rw [discovered, lookAlike]
  by_cases hfits : sectorSizeOf shift + headerSize ≤ m.size
  · rw [if_neg (not_lt.mpr hfits)]
    cases hhdr : headerAt m (sectorSizeOf shift) with
    | none =>
      constructor
      · exact fun hno => by cases hno
      · rintro ⟨-, hdr, hsome, -⟩
        cases hsome
    | some hdr =>
      have hge : 2 ≤ hdr.indexSectors := (validIndexHeader_some hhdr).1
      have hone : headerAt m (1 * sectorSizeOf shift) = some hdr := by rw [Nat.one_mul, hhdr]
      dsimp only
      by_cases hgood : hdr.sectorShift = shift ∧ hdr.indexSectors ≤ m.size / sectorSizeOf shift
      · rw [if_neg (by rw [not_or, not_not, not_lt]; exact hgood), sequenceAt_isSome (by omega) hone]
        constructor
        · exact fun hall => ⟨hfits, hdr, rfl, hgood.1, hgood.2, hall⟩
        · rintro ⟨-, hdr', hsome, -, -, hall⟩
          cases hsome
          exact hall
      · have hbad : hdr.sectorShift ≠ shift ∨ m.size / sectorSizeOf shift < hdr.indexSectors := by
          rw [not_and_or, not_le] at hgood
          exact hgood
        rw [if_pos hbad]
        refine ⟨(fun hno => by cases hno), ?_⟩
        rintro ⟨-, hdr', hsome, hs, hle, -⟩
        cases hsome
        exact absurd ⟨hs, hle⟩ hgood
  · rw [if_pos (not_le.mp hfits)]
    exact ⟨(fun hno => by cases hno), fun hno => absurd hno.1 hfits⟩

end Scan

/-! ## What discovery finds -/

section Finds

variable {w : World} {n shift : Nat}

theorem Ring.noEarlierSequence_iff (hr : Ring False w) :
    noEarlierSequence w.dev.mem w.fs.sectorShift ↔ noLookAlikes w.dev.mem w.fs.sectorShift := by
  refine forall_congr' fun s => forall_congr' fun hs => forall_congr' fun hturn => forall_congr' fun _ => ?_
  have hne : s ≠ w.fs.sectorShift := by
    rintro rfl
    exact absurd hturn (lt_irrefl _)
  rw [probed, hr.discovered_first hne, Option.none_or, ← discovered_isSome, Option.not_isSome_iff_eq_none]

/-- Discovery finds the number of index sectors, the sector size and the active sector. -/
def findsGeometry (w : World) (n shift : Nat) : Prop :=
  ∃ seq, (findIndexSequence.run w).1 = .ok seq ∧ seq.indexSectors = n ∧ seq.sectorShift = shift ∧
    seq.activeSector = w.fs.activeIndexSector

theorem findsGeometry_iff (hplan : w.dev.plan = []) : findsGeometry w n shift ↔
    ∃ seq, findSequence w.dev.mem = some seq ∧ seq.indexSectors = n ∧ seq.sectorShift = shift ∧
      seq.activeSector = w.fs.activeIndexSector := by
  rw [findsGeometry, findIndexSequence_findSequence hplan]
  cases findSequence w.dev.mem with
  | none =>
    constructor
    · rintro ⟨seq, hseq, -⟩
      cases hseq
    · rintro ⟨seq, hseq, -⟩
      cases hseq
  | some seq =>
    constructor
    · rintro ⟨seq', hseq, hrest⟩
      exact ⟨seq', congrArg some (Except.ok.inj hseq), hrest⟩
    · rintro ⟨seq', hseq, hrest⟩
      exact ⟨seq', congrArg Except.ok (Option.some.inj hseq), hrest⟩

/-- Discovery finds the geometry of a ring exactly if there is no look-alike. -/
theorem FlashLog.findsGeometry_iff {logs : List (List IndexRecord)} (h : FlashLog w logs)
    (hord : w.fs.ring.Ordered) :
    findsGeometry w w.fs.indexSectors w.fs.sectorShift ↔ noLookAlikes w.dev.mem w.fs.sectorShift := by
  have hr := h.ring
  rw [Fastffs.findsGeometry_iff h.works.plan, ← hr.noEarlierSequence_iff]
  constructor
  · rintro ⟨seq, hseq, -, hshift, -⟩
    obtain ⟨-, -, hno, -⟩ := findSequence_iff.mp hseq
    rwa [hshift] at hno
  · intro hno
    obtain ⟨-, hm, -⟩ := h.restores hord hr.keepsIndex hno
    rw [mountable, Option.filter_eq_some_iff] at hm
    exact ⟨_, hm.1, rfl, rfl, hr.active_eq.symm⟩

end Finds

/-! ## Runs -/

section Runs

variable [Opts] {v w : World} {es : List IndexEvent} {n shift : Nat}

/-- An append of a slot that a name can have, or a mount of a flash without look-alikes. -/
def IndexEvent.plain : IndexEvent → Prop
  | .append _ slot _ => NameSlot slot
  | .mount w _ => noLookAlikes w.dev.mem w.fs.sectorShift

/-- The log of a run, whatever the index cache holds, and the geometry of its format. -/
def Formed (n shift : Nat) (w : World) : Prop :=
  ∃ logs f, FlashLog w logs ∧ CacheIs w.fs f ∧ w.fs.indexSectors = n ∧ w.fs.sectorSize = sectorSizeOf shift

theorem RunState.formed {logs : List (List IndexRecord)} (h : RunState w logs) (hN : w.fs.indexSectors = n)
    (hS : w.fs.sectorSize = sectorSizeOf shift) : Formed n shift w := ⟨logs, _, h.toFlashLog, h.cache, hN, hS⟩

omit [Opts] in
theorem FlashLog.sectorShift_eq {logs : List (List IndexRecord)} (h : FlashLog w logs)
    (hsize : w.fs.sectorSize = sectorSizeOf shift) : w.fs.sectorShift = shift :=
  sectorSizeOf_inj (h.ring.sectorSize_eq.symm.trans hsize)

omit [Opts] in
/-- Nine serials of sixteen are always in order. -/
theorem FlashLog.ordered {logs : List (List IndexRecord)} (h : FlashLog w logs) (hn : w.fs.indexSectors ≤ 9) :
    w.fs.ring.Ordered := by
  have h9 : w.fs.ring.sectors ≤ 9 := hn
  have hlt : w.fs.ring.count < w.fs.ring.sectors := h.ring.count_lt
  exact .inr (by omega)

/-- What a history without look-alikes keeps. -/
theorem History.formed (h : History v es w) (hv : Formed n shift v) (hn : n ≤ 9)
    (hplain : ∀ e ∈ es, e.plain) : Formed n shift w := by
  induction h with
  | start => exact hv
  | data hes hsame ih =>
    obtain ⟨logs, f, hlog, hc, hN, hS⟩ := ih hplain
    refine ⟨logs, f, hlog.ofArea hsame, hc.ofArea hsame, ?_, ?_⟩
    · rw [indexFs_view hsame.index Fs.indexSectors fun _ => rfl]
      exact hN
    · rw [indexFs_view hsame.index Fs.sectorSize fun _ => rfl]
      exact hS
  | @append es u slot head hes hwritten ih =>
    obtain ⟨logs, f, hlog, hc, hN, hS⟩ := ih fun e he => hplain e (List.mem_append_left _ he)
    have hslot : NameSlot slot := hplain _ (List.mem_append_right _ (List.mem_singleton.mpr rfl))
    have ha : Writable u.fs ⟨slot, head⟩ := ⟨hslot.1, hslot.2, hwritten.2.imp (fun hw => hw.1) id⟩
    obtain ⟨res, w', logs', g, hrun, hlog', hc', hsetup⟩ := hlog.append_run hc ha
    dsimp only at hrun
    rw [hrun]
    exact ⟨logs', g, hlog', hc', hsetup.indexSectors.trans hN, hsetup.sectorSize.trans hS⟩
  | @mount es u w' options hes hrun ih =>
    obtain ⟨logs, f, hlog, -, hN, hS⟩ := ih fun e he => hplain e (List.mem_append_left _ he)
    have hno : noLookAlikes u.dev.mem u.fs.sectorShift :=
      hplain _ (List.mem_append_right _ (List.mem_singleton.mpr rfl))
    rw [remount_run] at hrun
    obtain ⟨logs', hstate, hsame⟩ := hlog.mounted_again (y := { u with fs := {}, files := fun _ => {} })
      (hlog.ordered (hN ▸ hn)) (hlog.ring.noEarlierSequence_iff.mpr hno) rfl hrun
    exact ⟨logs', _, hstate.toFlashLog, hstate.cache, hsame.indexSectors.trans hN, hsame.sectorSize.trans hS⟩

/-- In a run on a device that never fails, whose mounts have met no look-alike, discovery
finds the formatted geometry and the active sector in every state without a look-alike,
and in no other. -/
theorem geometry_found {format_ : FormatOptions} {mount_ : MountOptions} {w0 w1 w2 : World}
    (hplan : w0.dev.plan = []) (hsectors : format_.sectors ≤ 9)
    (hformat : (format format_).run w0 = (.ok (), w1))
    (hmount : (remount mount_).run w1 = (.ok (), w2)) (hrun : Steps stepOp legalOp w2 w) :
    ∃ shift, formatSectorShift format_.sectorSize = some shift ∧ (∃ es, History w2 es w) ∧
      ∀ es, History w2 es w → (∀ e ∈ es, e.plain) →
        (findsGeometry w format_.sectors shift ↔ noLookAlikes w.dev.mem shift) := by
  obtain ⟨⟨logs2, shift, hstart, hshift, hS2, hN2⟩, -⟩ := remount_started hplan hformat hmount
  refine ⟨shift, hshift, run_history hmount hrun, fun es hes hplain => ?_⟩
  obtain ⟨logs, f, hlog, -, hN, hS⟩ := hes.formed (hstart.formed hN2 hS2) hsectors hplain
  rw [← hN, ← hlog.sectorShift_eq hS]
  exact hlog.findsGeometry_iff (hlog.ordered (hN ▸ hsectors))

omit [Opts] in
instance (m : Mem) (shift : Nat) : Decidable (lookAlike m shift) := by
  have (hdr : IndexHeader) (i : Nat) : Decidable (∀ other, headerAt m (i * sectorSizeOf shift) = some other →
      other.indexSectors = hdr.indexSectors ∧ other.sectorShift = shift) :=
    decidable_of_iff (∀ other ∈ headerAt m (i * sectorSizeOf shift),
      other.indexSectors = hdr.indexSectors ∧ other.sectorShift = shift) Iff.rfl
  exact decidable_of_iff (sectorSizeOf shift + headerSize ≤ m.size ∧
    ∃ hdr ∈ headerAt m (sectorSizeOf shift), hdr.sectorShift = shift ∧
      hdr.indexSectors ≤ m.size / sectorSizeOf shift ∧
      ∀ i < hdr.indexSectors, ∀ other, headerAt m (i * sectorSizeOf shift) = some other →
        other.indexSectors = hdr.indexSectors ∧ other.sectorShift = shift) Iff.rfl

omit [Opts] in
instance (m : Mem) (shift : Nat) : Decidable (noLookAlikes m shift) := by
  unfold noLookAlikes; infer_instance

/-- Mounts that find the sequence of the run have met no look-alike. -/
theorem History.plain (h : History v es w) (hv : ∃ logs, RunState v logs) (hok : mountOptionsOk v v.fs.options)
    (hreg : ∀ e ∈ es, e.regular) : ∀ e ∈ es, e.plain := by
  induction h with
  | start => exact nofun
  | data hes hsame ih => exact ih hreg
  | append hes hwritten ih =>
    intro e he
    rcases List.mem_append.mp he with hold | hnew
    · exact ih (fun e he => hreg e (List.mem_append_left _ he)) e hold
    · have hevent := hreg e he
      rw [List.mem_singleton.mp hnew] at hevent ⊢
      exact hevent.1
  | mount hes hrun ih =>
    intro e he
    have hbefore := fun e he => hreg e (List.mem_append_left _ he)
    rcases List.mem_append.mp he with hold | hnew
    · exact ih hbefore e hold
    · have hevent := hreg e he
      rw [List.mem_singleton.mp hnew] at hevent ⊢
      obtain ⟨⟨logs, hstate⟩, -⟩ := hes.runState hv hok hbefore
      exact hstate.ring.noEarlierSequence_iff.mp hevent.1

omit [Opts] in
/-- The bytes of a file look like a header of another size, the index has rotated, and discovery finds
the sector size. -/
theorem geometry_found_worn :
    Nor.read wornOut.dev.mem 2048 8 = (headerFile 2).drop 227 ∧ findsGeometry wornMounted 2 0 := by
  obtain ⟨⟨-, -, -, hno, -⟩, ⟨-, hnear⟩, -⟩ := wornRun_checked
  have hformat : (format { sectorSize := 256, indexSectors := 2 }).run (blankChip 16) =
      (.ok (), formattedChip 16 2) := run_eq_of_isOk (by decide +kernel)
  have hmount : (@remount defaultOpts smallMount).run (formattedChip 16 2) = (.ok (), wornStart) :=
    run_eq_of_isOk (by decide +kernel)
  obtain ⟨es, -, hes, hregular⟩ := wornMounted_history
  obtain ⟨⟨logs, shift, hstart, hshift, hS, hN⟩, hok⟩ := @remount_started defaultOpts _ _ (blankChip 16) _ _ rfl
    hformat hmount
  cases hshift
  have hplain := @History.plain defaultOpts _ _ _ hes ⟨logs, hstart⟩ hok hregular
  have hlast : noLookAlikes wornMounted.dev.mem 0 := by
    obtain ⟨logs', f, hlog, -, -, hsize⟩ := @History.formed defaultOpts _ _ _ 2 0 hes
      (@RunState.formed defaultOpts _ _ _ _ hstart hN hS) (by decide) hplain
    rw [← hlog.sectorShift_eq hsize]
    exact hlog.ring.noEarlierSequence_iff.mp hno
  obtain ⟨shift, hshift, -, hfinds⟩ := @geometry_found defaultOpts wornMounted { sectorSize := 256, indexSectors := 2 }
    smallMount (blankChip 16) _ wornStart rfl (by decide) hformat hmount wornMounted_steps
  cases hshift
  exact ⟨hnear, (hfinds es hes hplain).mpr hlast⟩

omit [Opts] in
/-- Index sector `0` is the spare one, and the bytes of the file decide the geometry. -/
theorem geometry_from_file_bytes :
    ¬ ∀ (o : Opts) (format_ : FormatOptions) (mount_ : MountOptions) (w0 w1 w2 w : World) (shift : Nat),
      w0.dev.plan = [] → format_.sectors ≤ 9 → (format format_).run w0 = (.ok (), w1) →
      formatSectorShift format_.sectorSize = some shift → (@remount o mount_).run w1 = (.ok (), w2) →
      Steps (@stepOp o) (@legalOp o) w2 w → findsGeometry w format_.sectors shift := by
  intro hall
  obtain ⟨-, ⟨hdecoy, -⟩, -⟩ := wornRun_checked
  have hformat : (format { sectorSize := 256, indexSectors := 2 }).run (blankChip 16) =
      (.ok (), formattedChip 16 2) := run_eq_of_isOk (by decide +kernel)
  have hmount : (@remount defaultOpts smallMount).run (formattedChip 16 2) = (.ok (), wornStart) :=
    run_eq_of_isOk (by decide +kernel)
  obtain ⟨seq, hseq, -, hshift, -⟩ := hall defaultOpts { sectorSize := 256, indexSectors := 2 } smallMount
    (blankChip 16) _ wornStart decoyOut 0 rfl (by decide) hformat (by decide) hmount decoyOut_steps
  rw [hseq] at hdecoy
  cases hshift.symm.trans (Option.some.inj hdecoy)

end Runs

end Fastffs
