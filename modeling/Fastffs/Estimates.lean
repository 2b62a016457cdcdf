import Fastffs.Handles
import Fastffs.OwnershipRun

/-!
# The average number of sectors, and the space estimate

`fffs_invalidate_old_chain` moves an average with eight fractional bits by an eighth
towards each chain it invalidates, and keeps it in sixteen bits.  `fffs_fsinfo` multiplies
it with the number of files in 32 bits.  Both are exact as long as nothing is cut
(`sampleExact_iff`, `estimate_exact_iff`), and over a run in which no update is cut the
average is the fold of the updates over the integers (`estimates_exact`).
-/

namespace Fastffs

open Prog

/-! ## One update -/

/-- The update of the average by a chain of `visited` sectors ends between the old average and
the chain. -/
def SampleBetween (visited : Nat) (fs : Fs) : Prop :=
  let old := fs.avgSectorsPerFileQ8
  let new := (fsinfoSampleChain visited fs).avgSectorsPerFileQ8
  min old (256 * visited) ≤ new ∧ new ≤ max old (256 * visited)

/-- The update is the one over the integers, which ends between the two. -/
def SampleExact (visited : Nat) (fs : Fs) : Prop :=
  (fsinfoSampleChain visited fs).avgSectorsPerFileQ8 = (7 * fs.avgSectorsPerFileQ8 + 256 * visited) / 8 ∧
    SampleBetween visited fs

theorem fsinfoSampleChain_avg (visited : Nat) (fs : Fs) :
    (fsinfoSampleChain visited fs).avgSectorsPerFileQ8 =
      u16 (u32 (fs.avgSectorsPerFileQ8 * 7 + u32 (visited * 256)) / 8) := rfl

theorem sampleExact_iff {visited : Nat} {fs : Fs} :
    SampleExact visited fs ↔ 7 * fs.avgSectorsPerFileQ8 + 256 * visited < 524288 := by
  rw [SampleExact, SampleBetween, fsinfoSampleChain_avg]
  constructor
  · rintro ⟨hexact, -⟩
    have hlt := u16_lt (u32 (fs.avgSectorsPerFileQ8 * 7 + u32 (visited * 256)) / 8)
    omega
  · intro hlt
    have hsample : u32 (visited * 256) = visited * 256 := u32_of_lt (by omega)
    have hsum : u32 (fs.avgSectorsPerFileQ8 * 7 + visited * 256) = fs.avgSectorsPerFileQ8 * 7 + visited * 256 :=
      u32_of_lt (by omega)
    rw [hsample, hsum, u16_of_lt (by omega)]
    omega

/-! ## The average over a run -/

/-- The average after an event. -/
def Event.average (e : Event) : Nat :=
  match e.act with
  | .sample visited => (fsinfoSampleChain visited e.fs).avgSectorsPerFileQ8
  | _ => e.fs.avgSectorsPerFileQ8

/-- The events, the last one first, have led the average of a new mount to `avg`. -/
def Averages : List Event → Nat → Prop
  | [], avg => avg = sectorsPerFileQ8One
  | e :: older, avg => Averages older e.fs.avgSectorsPerFileQ8 ∧ avg = e.average

/-- The average over the integers. -/
def exactAverage : List Event → Nat
  | [] => sectorsPerFileQ8One
  | e :: older =>
      match e.act with
      | .sample visited => (7 * exactAverage older + 256 * visited) / 8
      | _ => exactAverage older

/-- An update that is not cut. -/
def Event.SampleFits (e : Event) : Prop :=
  ∀ visited, e.act = .sample visited → 7 * e.fs.avgSectorsPerFileQ8 + 256 * visited < 524288

/-- When no update is cut the average is the one over the integers. -/
theorem Averages.exact {events : List Event} {avg : Nat} (h : Averages events avg)
    (hfits : ∀ e ∈ events, e.SampleFits) : avg = exactAverage events := by
  induction events generalizing avg with
  | nil => exact h
  | cons e older ih =>
    obtain ⟨hold, havg⟩ := h
    have hbefore := ih hold fun e' he' => hfits e' (List.mem_cons_of_mem _ he')
    rw [havg, Event.average, exactAverage, ← hbefore]
    split
    · next visited hact =>
      exact (sampleExact_iff.mpr (hfits e (List.mem_cons_self ..) visited hact)).1
    · rfl

/-- The average is what the updates since the last mount have made of it. -/
structure Averaged (w : World) : Prop where
  indexSectors_pos : 0 < w.fs.indexSectors
  history : ∃ recent older, w.trace = recent ++ older ∧ Averages recent w.fs.avgSectorsPerFileQ8

/-- An act that is no update. -/
def Act.isSample : Act → Bool
  | .sample _ => true
  | _ => false

/-- A world with the same average, and one more event at most. -/
theorem Averaged.congr {w w' : World} (hw : Averaged w) (hidx : w'.fs.indexSectors = w.fs.indexSectors)
    (havg : w'.fs.avgSectorsPerFileQ8 = w.fs.avgSectorsPerFileQ8) (htrace : w'.trace = w.trace) :
      Averaged w' := by
  refine ⟨by rw [hidx]; exact hw.indexSectors_pos, ?_⟩
  rw [havg, htrace]
  exact hw.history

theorem Averaged.note {w : World} {act : Act} (hw : Averaged w) (hact : act.isSample = false) :
    Averaged { w with trace := ⟨act, w.fs, w.files⟩ :: w.trace } := by
  obtain ⟨recent, older, htrace, havg⟩ := hw.history
  refine ⟨hw.indexSectors_pos, ⟨act, w.fs, w.files⟩ :: recent, older, congrArg _ htrace, havg, ?_⟩
  cases act <;> first | rfl | cases hact

instance : HandleInv Averaged where
  indexSectors_pos hw := hw.indexSectors_pos
  ofSame hsame hw := hw.congr hsame.indexSectors hsame.average hsame.trace
  noteSector {w act} hact hw := hw.note (by cases act <;> first | rfl | cases hact)

instance : NarrowInv Averaged where
  narrow hw := hw.note rfl

theorem averaged_modifyFile (h : Nat) (g : File → File) : Keeps Averaged (modifyFile h g) :=
  ⟨fun _ hw => hw.congr rfl rfl rfl⟩

instance (h : Nat) : ReaderInv h Averaged where
  ofMove _ := averaged_modifyFile h _

instance (h : Nat) (final : Bool) : Keeps Averaged (note (.flush h final)) :=
  ⟨fun _ hw => hw.note rfl⟩

instance (h : Nat) : Keeps Averaged (registerOpenFile h) := ⟨fun _ hw => hw.congr rfl rfl rfl⟩

instance (h : Nat) : Keeps Averaged (unregisterOpenFile h) := ⟨fun _ hw => hw.congr rfl rfl rfl⟩

/-- An update and its event. -/
instance (visited : Nat) :
    Keeps Averaged (do note (.sample visited); modifyFs (fsinfoSampleChain visited)) := by
  constructor
  intro w hw
  obtain ⟨recent, older, htrace, havg⟩ := hw.history
  exact ⟨hw.indexSectors_pos, ⟨.sample visited, w.fs, w.files⟩ :: recent, older, congrArg _ htrace, havg, rfl⟩

variable [Opts] {h : Nat} {w w' : World}

/-! ## The calls keep it -/

instance (slot head next : Nat) : Keeps Averaged (invalidateCommitted slot head next) :=
  invalidateCommitted_keeps fun _ => inferInstance

instance : Keeps Averaged (allocNextSector h) := by
  have hwindows : AllocWindows Averaged h (fun _ _ => True) fun _ => True :=
    ⟨fun _ _ => Yields.ofKeeps, (Yields.ofConst trivial).mono fun _ _ => ⟨inferInstance, trivial⟩,
      fun _ _ _ _ => ⟨(averaged_modifyFile h _).keeps, fun _ _ _ _ => trivial⟩⟩
  exact (allocNextSector_gives hwindows).toKeeps

instance (file : File) (sector dataLen : Nat) : Keeps Averaged (noteDataLen file sector dataLen) := by
  unfold noteDataLen; infer_instance

instance (old : File) (next : Nat) : Keeps Averaged (recordExtent h old next) :=
  recordExtent_keeps fun w hw => (inferInstance : Keeps Averaged (noteDataLen _ _ _)).keeps w hw

instance (next : Nat) (final : Bool) : Keeps Averaged (flushPendingSpanHead h next final) :=
  flushPendingSpanHead_keeps (fun _ hw => hw.note rfl) (averaged_modifyFile h _)

instance (final : Bool) : Keeps Averaged (flushWriteCache h final) := by
  have hmodify := averaged_modifyFile h
  unfold flushWriteCache; infer_instance

instance : Keeps Averaged (startNextExtent h) := by
  have hmodify := averaged_modifyFile h
  unfold startNextExtent; infer_instance

instance (fuel : Nat) (src : List Nor.Byte) : Keeps Averaged (writeLoop h fuel src) := by
  have hmodify := averaged_modifyFile h
  induction fuel generalizing src with
  | zero => unfold writeLoop; infer_instance
  | succ fuel ih => unfold writeLoop; infer_instance

instance (src : List Nor.Byte) : Keeps Averaged (write h src) := by
  unfold write; infer_instance

instance : Keeps Averaged (refreshOldHead h) :=
  refreshOldHead_keeps (fun _ => averaged_modifyFile h _) (averaged_modifyFile h _)

instance : Keeps Averaged (closeWriter h) := by
  unfold closeWriter
  refine Keeps.bind (k := fun _ => Keeps.bind (k := fun file => Keeps.bind (k := fun _ => ?_)))
  dsimp only
  infer_instance

instance : Keeps Averaged (close h) := by
  have hmodify := averaged_modifyFile h
  unfold close closeCommit
  infer_instance

instance (name : List Nor.Byte) (flags : OpenFlags) : Keeps Averaged (openFile h name flags) := by
  have hmodify := averaged_modifyFile h
  have hread : ∀ slot head root, Keeps Averaged (openRead h slot head root) := by
    intro slot head root
    unfold openRead; infer_instance
  have hwrite : ∀ resolved, Keeps Averaged (openWrite h name resolved) := by
    intro resolved
    unfold openWrite; infer_instance
  unfold openFile
  refine Keeps.bind (k := fun _ => ?_)
  split
  · infer_instance
  · refine Keeps.bind (k := fun resolved => ?_)
    split <;> infer_instance

instance (name : List Nor.Byte) : Keeps Averaged (deleteFile name) := by
  unfold deleteFile
  refine Keeps.bind (k := fun resolved => ?_)
  split <;> infer_instance

/-- `fffs_mount`. -/
theorem mount_averaged {options : MountOptions} (h : (mount options).run w = (.ok (), w')) : Averaged w' := by
  have hmap : Keeps Averaged (modifyFs allocMapInit) := by
    constructor
    intro v hv
    rw [run_modifyFs, allocMapInit]
    split <;> exact hv.congr rfl rfl rfl
  have hreplay : Keeps Averaged mountReplay := by
    unfold mountReplay; infer_instance
  have hread : ReadInv fun _ : World => True := ⟨fun _ => trivial⟩
  refine mount_reaches (R := fun _ => True) trivial (fun v seq _ hidx _ => ⟨?_, [], v.trace, rfl, rfl⟩) h
  exact Nat.lt_of_lt_of_le Nat.two_pos hidx

/-- One call keeps the invariant. -/
theorem stepOp_averaged {op : Op} (hw : Averaged w) (hlegal : legalOp w op) : Averaged (stepOp w op) := by
  by_cases hno : ∀ options, op ≠ .remount options
  · have hkeeps : Keeps Averaged (execOp op) := by
      cases op with
      | remount options => exact absurd rfl (hno options)
      | _ => unfold execOp; infer_instance
    exact hkeeps.keeps w hw
  · rw [not_forall] at hno
    obtain ⟨options, hop⟩ := hno
    rw [not_not] at hop
    subst hop
    exact mount_averaged (Prod.ext hlegal rfl : (remount options).run w = (.ok (), stepOp w (.remount options)))

/-! ## The estimate and the gate -/

/-- The product behind the estimate. -/
def estimateProduct (fs : Fs) : Nat := fs.committedFileCount * mdFileRecordSize * fs.avgSectorsPerFileQ8

/-- The bytes of the data sectors. -/
def dataBytes (fs : Fs) : Nat := (fs.sectorCount - fs.indexSectors) * (fs.sectorSize - sectorFooterSize)

/-- The bytes that the open writers hold. -/
def pendingBytes (w : World) : Nat :=
  ((w.fs.openFiles.filter fun h => (w.files h).access == .wronly).map fun h => (w.files h).size).sum

/-- The bytes in use: committed, pending, and the estimate for the metadata. -/
def usedBytes (w : World) : Nat :=
  w.fs.committedDataBytes + pendingBytes w + estimateProduct w.fs / sectorsPerFileQ8One

/-- What `gc_fsinfo_allows_compaction` asks for. -/
def requiredBytes (fs : Fs) (c : CompactionCandidate) : Nat :=
  if fs.sectorSize > c.trappedReclaimable then fs.sectorSize - c.trappedReclaimable else allocMinUsableFree

variable {refresh refreshIfNeeded : Bool} {info : Fsinfo}

/-- What `fffs_fsinfo` returns, from the world it returns in. -/
theorem fsinfo_ok (h : (fsinfo refresh refreshIfNeeded true).run w = (.ok info, w')) :
    info.totalBytes = u32 (dataBytes w'.fs) ∧ info.pendingDataBytes = u32 (pendingBytes w') ∧
      info.committedValid = fsinfoCommittedValid w'.fs ∧
      info.metadataEstimateValid = fsinfoCommittedValid w'.fs ∧
      (fsinfoCommittedValid w'.fs = true → info.committedDataBytes = w'.fs.committedDataBytes ∧
        info.estimatedMetadataBytes = u32 (estimateProduct w'.fs) / sectorsPerFileQ8One) := by
  rw [fsinfo] at h
  obtain ⟨fs, w1, -, h⟩ := bind_ok h
  obtain ⟨_, w2, -, h⟩ := bind_ok h
  rw [bind_of_ok (run_get w2)] at h
  dsimp only at h
  split at h
  · next hvalid =>
    rw [if_pos rfl] at h
    cases h
    exact ⟨rfl, rfl, hvalid.symm, hvalid.symm, fun _ => ⟨rfl, rfl⟩⟩
  · next hvalid =>
    cases h
    rw [Bool.not_eq_true] at hvalid
    refine ⟨rfl, rfl, hvalid.symm, hvalid.symm, fun htrue => ?_⟩
    rw [hvalid] at htrue
    cases htrue

/-- After a refresh the counts are valid. -/
theorem fsinfoRefresh_valid {u : Unit} (h : fsinfoRefresh.run w = (.ok u, w')) :
    fsinfoCommittedValid w'.fs = true := by
  rw [fsinfoRefresh] at h
  obtain ⟨counts, w1, -, h⟩ := bind_ok h
  cases counts with
  | error e => cases h
  | ok counts =>
    cases h
    rfl

/-- `fffs_fsinfo` with `REFRESH_IF_NEEDED` leaves valid counts. -/
theorem fsinfo_valid (h : (fsinfo false true true).run w = (.ok info, w')) :
    fsinfoCommittedValid w'.fs = true := by
  rw [fsinfo, bind_of_ok (show getFs.run w = (.ok w.fs, w) from rfl)] at h
  obtain ⟨u, w1, hwhen, h⟩ := bind_ok h
  have hvalid : fsinfoCommittedValid w1.fs = true := by
    rw [Prog.when] at hwhen
    split at hwhen
    · exact fsinfoRefresh_valid hwhen
    · next hno =>
      cases hwhen
      simpa using hno
  rw [bind_of_ok (run_get w1)] at h
  dsimp only at h
  rw [if_pos hvalid, if_pos rfl] at h
  cases h
  exact hvalid

/-- The estimate is the one over the integers if and only if the product fits. -/
theorem estimate_exact_iff (h : (fsinfo refresh refreshIfNeeded true).run w = (.ok info, w'))
    (hvalid : info.metadataEstimateValid = true) :
    info.estimatedMetadataBytes = estimateProduct w'.fs / sectorsPerFileQ8One ↔
      estimateProduct w'.fs < 4294967296 := by
  obtain ⟨-, -, -, hsame, hcommitted⟩ := fsinfo_ok h
  rw [(hcommitted (hsame ▸ hvalid)).2, sectorsPerFileQ8One, u32]
  omega

/-- The numbers of the gate fit in 32 bits. -/
structure GateFits (w : World) : Prop where
  product : estimateProduct w.fs < 4294967296
  used : usedBytes w < 4294967296
  total : dataBytes w.fs < 4294967296
  sectorSize : w.fs.sectorSize < 4294967296

/-- With numbers that fit the gate compares them over the integers. -/
theorem gate_exact {c : CompactionCandidate} {allowed : Bool}
    (h : (gcFsinfoAllowsCompaction c).run w = (.ok allowed, w')) (hfits : GateFits w') :
    allowed = true ↔ usedBytes w' + requiredBytes w'.fs c ≤ dataBytes w'.fs := by
  rw [gcFsinfoAllowsCompaction] at h
  obtain ⟨info, w1, hinfo, h⟩ := bind_ok h
  have hvalid := fsinfo_valid hinfo
  obtain ⟨htotal, hpending, hcommitted, hestimate, hcounts⟩ := fsinfo_ok hinfo
  rw [bind_of_ok (show getFs.run w1 = (.ok w1.fs, w1) from rfl)] at h
  dsimp only at h
  rw [hcommitted, hestimate, hvalid, Bool.and_self, if_pos rfl] at h
  have hw : w1 = w' := by
    split at h <;> cases h <;> rfl
  subst hw
  have hused : info.committedDataBytes + info.pendingDataBytes + info.estimatedMetadataBytes = usedBytes w1 := by
    have hle : pendingBytes w1 ≤ usedBytes w1 := (Nat.le_add_left _ _).trans (Nat.le_add_right _ _)
    rw [(hcounts hvalid).1, (hcounts hvalid).2, hpending, u32_of_lt (Nat.lt_of_le_of_lt hle hfits.used),
      u32_of_lt hfits.product, usedBytes]
  rw [hused, u32_of_lt hfits.used, htotal, u32_of_lt hfits.total] at h
  have hrequired : (if w1.fs.sectorSize > c.trappedReclaimable then u32 (w1.fs.sectorSize - c.trappedReclaimable)
      else allocMinUsableFree) = requiredBytes w1.fs c := by
    rw [requiredBytes, u32_of_lt (Nat.lt_of_le_of_lt (Nat.sub_le _ _) hfits.sectorSize)]
  rw [hrequired] at h
  have hpos : 0 < requiredBytes w1.fs c := by
    rw [requiredBytes]
    split
    · omega
    · exact Nat.zero_lt_succ _
  split at h
  · cases h
    constructor
    · nofun
    · intro hle
      omega
  · cases h
    rw [decide_eq_true_eq]
    omega

/-! ## Runs -/

/-- Along every run an update is exact if and only if it fits, and if all of them since the
last mount fit the average is the one over the integers.  The estimate is exact if and only if
its product fits, and the gate compares integers when its numbers fit. -/
theorem estimates_exact {options : MountOptions} {w0 w1 : World}
    (hmount : (mount options).run w0 = (.ok (), w1)) (hrun : Steps stepOp legalOp w1 w) :
    (∀ e ∈ w.trace, ∀ visited, e.act = .sample visited →
      (SampleExact visited e.fs ↔ 7 * e.fs.avgSectorsPerFileQ8 + 256 * visited < 524288)) ∧
    (∃ recent older, w.trace = recent ++ older ∧ Averages recent w.fs.avgSectorsPerFileQ8 ∧
      ((∀ e ∈ recent, e.SampleFits) → w.fs.avgSectorsPerFileQ8 = exactAverage recent)) ∧
    (∀ refresh refreshIfNeeded info w', (fsinfo refresh refreshIfNeeded true).run w = (.ok info, w') →
      info.metadataEstimateValid = true →
      (info.estimatedMetadataBytes = estimateProduct w'.fs / sectorsPerFileQ8One ↔
        estimateProduct w'.fs < 4294967296)) ∧
    ∀ c allowed w', (gcFsinfoAllowsCompaction c).run w = (.ok allowed, w') → GateFits w' →
      (allowed = true ↔ usedBytes w' + requiredBytes w'.fs c ≤ dataBytes w'.fs) := by
  have hw : Averaged w := hrun.invariant (fun _ _ hv hop => stepOp_averaged hv hop) (mount_averaged hmount)
  obtain ⟨recent, older, htrace, havg⟩ := hw.history
  exact ⟨fun _ _ _ _ => sampleExact_iff, ⟨recent, older, htrace, havg, havg.exact⟩,
    fun _ _ _ _ hinfo hvalid => estimate_exact_iff hinfo hvalid,
    fun _ _ _ hgate hfits => gate_exact hgate hfits⟩

omit [Opts] in
/-- The calls of `mappedRun`. -/
theorem estimates_exact_mappedRun :
    let w1 := ((@mount defaultOpts smallMount).run (formattedChip 14 2)).2
    let w := mappedRun.foldl (@stepOp defaultOpts) w1
    (∀ e ∈ w.trace, ∀ visited, e.act = .sample visited →
      (SampleExact visited e.fs ↔ 7 * e.fs.avgSectorsPerFileQ8 + 256 * visited < 524288)) ∧
    (∃ recent older, w.trace = recent ++ older ∧ Averages recent w.fs.avgSectorsPerFileQ8 ∧
      ((∀ e ∈ recent, e.SampleFits) → w.fs.avgSectorsPerFileQ8 = exactAverage recent)) := by
  intro w1 w
  have hok : (@mount defaultOpts smallMount).run (formattedChip 14 2) = (.ok (), w1) :=
    run_eq_of_isOk (by decide +kernel)
  have hallowed : Steps.Allowed (@stepOp defaultOpts) (@legalOp defaultOpts) mappedRun w1 := by
    decide +kernel
  have hall := @estimates_exact defaultOpts w smallMount (formattedChip 14 2) w1 hok
    (Steps.ofAllowed _ _ hallowed)
  exact ⟨hall.1, hall.2.1⟩

/-! ## A long file -/

/-- The build without an allocation map that leaves the records of a deleted file to the
collector. -/
@[reducible] def lazyOpts : Opts where
  indexCacheMode := .none
  allocMapMode := .none
  lazyDeleteTombstones := true
  gcOnAllocFailure := true
  gcParanoidReachability := false
  compactionReserveBestFit := false

/-- The record and the footer of sector `i` of a file that fills `n` sectors of 256 bytes,
from sector 2 on. -/
def longRecord (slot n i : Nat) : List Nor.Byte :=
  encodeExtentMetadata slot (if i = 0 then mdTypeFileRootV1 else mdTypeFileContV1) 0 230
      (if i = 0 then n else 1) (if i = 0 then 227 + 230 * (n - 1) else 227 + 230 * (i - 1))
      (if i = 0 ∨ i + 1 = n then 0 else i + 3) true ++
    encodeSectorFooter (i + 1) true

/-- The bits that the record and the footer of sector `i` clear.  Between the first sector and the
last one they change by the same number from sector to sector. -/
def longClears (slot n i : Nat) : Nat :=
  if n ≤ i then 0
  else if i = 0 ∨ i + 1 = n then Nor.clears (longRecord slot n i)
  else Nor.clears (longRecord slot n 1) -
    (i - 1) * (Nor.clears (longRecord slot n 1) - Nor.clears (longRecord slot n 2))

/-- These bits in `2 ^ k` sectors, from sector `i` on. -/
def longBlock (slot n : Nat) : Nat → Nat → Nat
  | 0, i => longClears slot n i
  | k + 1, i => longBlock slot n k i + longBlock slot n k (i + 2 ^ k) <<< (2048 * 2 ^ k)

/-- A chip with one file, whose name is `a` and whose data are `0xff` bytes in `n ≤ 2048` sectors. -/
def longFileChip (n : Nat) : World :=
  let w := ((format { sectorSize := 256, indexSectors := 2 }).run (blankChip (n + 7))).2
  let slot := normalizeSlotBase (hash16 [0x61#8])
  let indexed := Nor.program w.dev.mem 8 (storeLe16 slot ++ storeLe16 2)
  let named := Nor.program indexed 512 (rootPrefix [0x61#8])
  let mem := { named with cleared := named.cleared ||| longBlock slot n 11 0 <<< (8 * (2 * 256 + 230)) }
  { w with dev := { w.dev with mem := mem } }

/-- Some update has led the average from 256 to 0. -/
def sampleToZero (w : World) : Bool :=
  w.trace.any fun e => decide (e.act = .sample 2041 ∧ e.fs.avgSectorsPerFileQ8 = 256)

omit [Opts] in
theorem not_sampleBetween_of_toZero (h : sampleToZero w = true) :
    ¬ ∀ e ∈ w.trace, ∀ visited, e.act = .sample visited → SampleBetween visited e.fs := by
  simp only [sampleToZero, List.any_eq_true, decide_eq_true_eq] at h
  obtain ⟨e, he, hact, havg⟩ := h
  intro hall
  have hbetween := (hall e he 2041 hact).1
  rw [fsinfoSampleChain_avg, havg] at hbetween
  exact absurd hbetween (by decide)

/-- The delete of the file `a`. -/
@[reducible] def deleteA : Op := .deleteFile [0x61#8]

omit [Opts] in
/-- A call that is seen to return and to leave a world with a property. -/
theorem exists_run_of {x : M Unit} (p : World → Bool) (h : (isOk (x.run w).1 && p (x.run w).2) = true) :
    ∃ w1, x.run w = (.ok (), w1) ∧ p w1 = true := by
  rw [Bool.and_eq_true] at h
  exact ⟨_, run_eq_of_isOk h.1, h.2⟩

set_option maxRecDepth 100000 in
omit [Opts] in
/-- The delete of a file of 2041 sectors makes the average zero. -/
theorem estimates_not_exact :
    ¬ ∀ (o : Opts) (options : MountOptions) (w0 w1 w : World),
      (@mount o options).run w0 = (.ok (), w1) → Steps (@stepOp o) (@legalOp o) w1 w →
      ∀ e ∈ w.trace, ∀ visited, e.act = .sample visited → SampleBetween visited e.fs := by
  intro hall
  obtain ⟨w1, hok, hzero⟩ := exists_run_of (x := @mount lazyOpts smallMount) (w := longFileChip 2041)
    (fun w => sampleToZero (@stepOp lazyOpts w deleteA)) (by decide +kernel)
  have hstep : Steps (@stepOp lazyOpts) (@legalOp lazyOpts) w1 (@stepOp lazyOpts w1 deleteA) :=
    .tail deleteA .refl trivial
  exact not_sampleBetween_of_toZero hzero (hall lazyOpts smallMount _ w1 _ hok hstep)

end Fastffs
