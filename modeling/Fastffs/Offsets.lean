import Fastffs.CacheBounds

/-!
# Conversions to sixteen bits

The allocator and the metadata code keep offsets, lengths, spans and sectors in sixteen bits.
Each conversion is noted in the trace, but for the write offset after a flush, the end of a
reservation and the place of a payload, which are read off the state.

No conversion cuts its number while the sectors are of 32 KiB at most (`conversions_kept`).
With sectors of 64 KiB the last flush may come to the end of the sixteen bits: the granule
must divide some number from the metadata offset 65510 of a blank sector up to 65535, and must
not lead the padding of a shared sector, from 65494 on, to 65536.  In larger sectors an
allocation cuts its offsets.
-/

namespace Fastffs

open Prog

/-- The sectors and the granule let a write offset fit in sixteen bits. -/
def offsetsFit (g S : Nat) : Prop := S ≤ 32768 ∨ S = 65536 ∧ g ≤ 42 ∧ 65535 % g ≤ 25

instance (g S : Nat) : Decidable (offsetsFit g S) := inferInstanceAs (Decidable (_ ∨ _))

/-- The write offset after a flush fits in sixteen bits. -/
def flushFits (g : Nat) (file : File) (final : Bool) : Prop :=
  file.currentWriteOffset + (flushBytes g final file.cache).length < 65536

/-- Every conversion has kept its value, and those that read the state keep theirs.  The place
of a payload is read by a call, which needs that the offsets fit. -/
structure ConversionsKept (g : Nat) (w : World) : Prop where
  values : ∀ e ∈ w.trace, ∀ values, e.act = .narrow values → ∀ v ∈ values, u16 v = v
  writeOffset : ∀ e ∈ w.trace, ∀ h final, e.act = .flush h final →
    let after := (e.files h).currentWriteOffset + (flushBytes g final (e.files h).cache).length
    u16 after = after
  reserved : ∀ h, (w.files h).reserveCount ≠ 0 →
    u16 ((w.files h).reserveFirst + (w.files h).reserveCount) = (w.files h).reserveFirst +
      (w.files h).reserveCount
  payload : offsetsFit g w.fs.sectorSize → ∀ head slot useCache root w',
    (readFileRootMdPrefix head slot useCache).run w = (.ok root, w') → ∃ r,
      extentAt w slot head = some r ∧ payloadOffset w head r ≤ r.dataLen ∧
      root.payloadDataOff = r.dataOff + payloadOffset w head r ∧
      root.payloadDataLen = r.dataLen - payloadOffset w head r

section Fits

variable {g S c : Nat} {file : File} {final : Bool} {w w' : World}

/-- The flush of a writer with room leaves a write offset of sixteen bits. -/
theorem flush_fits (hpos : 0 < g) (hg : g ≤ fileCacheSize) (hfits : offsetsFit g S) (hroom : file.Room g S)
    (hne : file.cache ≠ []) : flushFits g file final := by
  have hwindow := hroom.window_of_cache hne
  have hmeta := hwindow.meta_le
  have hcap := hwindow.room
  rw [fileCacheSize] at hg
  obtain ⟨hdvd, hlen⟩ := flushBytes_length hpos final file.cache
  rw [flushFits]
  rcases hfits with hsmall | ⟨hS, hg42, hmod⟩
  · omega
  · rcases hwindow.edge with hedge | ⟨haligned, hedge⟩
    · omega
    · have hlast : g ∣ 65535 - 65535 % g := Nat.dvd_sub_mod 65535
      have hle := le_of_dvd_of_lt_add ((Nat.dvd_add_right haligned).mpr hdvd) hlast (by omega)
      omega

theorem offsetsFit.size_le (hfits : offsetsFit g S) : S ≤ 65536 := by
  rcases hfits with hsmall | ⟨hS, -⟩ <;> omega

/-- The place of a payload in a sector of 64 KiB at most. -/
theorem payload_kept {head slot : Nat} {useCache : Bool} {root : RootMd} (hS : w.fs.sectorSize ≤ 65536)
    (h : (readFileRootMdPrefix head slot useCache).run w = (.ok root, w')) :
    ∃ r, extentAt w slot head = some r ∧ payloadOffset w head r ≤ r.dataLen ∧
      root.payloadDataOff = r.dataOff + payloadOffset w head r ∧
      root.payloadDataLen = r.dataLen - payloadOffset w head r := by
  obtain ⟨r, hroot⟩ := readFileRootMdPrefix_ok (congrArg Prod.fst (Honest.honest h))
  obtain ⟨-, hlen, -, hend⟩ := extentAt_bounds hroot.extent
  have hle := hroot.payload_le
  rw [MdRecord.dataEnd, mdFileRecordSize] at hend
  refine ⟨r, hroot.extent, hle, ?_, ?_⟩
  · rw [hroot.dataOff, u16_of_lt (by omega)]
  · rw [hroot.dataLen, u16_of_lt (by omega)]

end Fits

/-! ## Runs -/

/-- In every run of calls whose offsets fit, every conversion keeps its value. -/
theorem conversions_kept [Opts] {options : MountOptions} {w0 w1 w : World} (htrace : w0.trace = [])
    (hmount : (remount options).run w0 = (.ok (), w1))
    (hrun : Steps stepOp (fun w op => legalOp w op ∧ offsetsFit w0.dev.programGranule w.fs.sectorSize) w1 w) :
    ConversionsKept w0.dev.programGranule w := by
  obtain ⟨-, ⟨hvalid, -⟩, -⟩ := mount_settled ((remount_run options w0).symm.trans hmount)
  simp only [validBackend, Bool.and_eq_true, bne_iff_ne, decide_eq_true_eq] at hvalid
  obtain ⟨⟨⟨-, hpos⟩, hgranule⟩, -⟩ := hvalid
  have hwatch : ∀ (v : World) shift c, offsetsFit w0.dev.programGranule v.fs.sectorSize →
      v.dev.programGranule = w0.dev.programGranule → v.fs.sectorSize = sectorSizeOf shift → c ≤ uint16Max →
      c * sectorSizeOf shift ≤ w0.dev.size → Watch w0.dev.programGranule (sectorSizeOf shift) c
        (fun _ file final => flushFits w0.dev.programGranule file final)
        fun values => ∀ v ∈ values, v < 65536 := by
    intro v shift c hfits _ hsize hcount _
    rw [hsize] at hfits
    exact {
      size_ge := sectorSizeOf_ge shift
      size_le := hfits.size_le
      count_le := hcount
      flush := fun _ _ hroom hne => flush_fits (Nat.pos_of_ne_zero hpos) hgranule hfits hroom hne
      narrow := id }
  obtain ⟨S, c, hw⟩ := watched_run htrace hwatch hmount hrun
  obtain ⟨n, L, -, hplaced⟩ := hw.placed
  have hcount := hw.count_le
  refine ⟨fun e he values hact v hv => ?_, fun e he h final hact => ?_, fun h hne => ?_,
    fun hfits head slot useCache root w' hread => payload_kept hfits.size_le hread⟩
  · have hmeets := hw.writers.events e he
    rw [Event.Meets, hact] at hmeets
    exact u16_of_lt (hmeets v hv)
  · have hmeets := hw.writers.events e he
    rw [Event.Meets, hact] at hmeets
    exact u16_of_lt hmeets
  · obtain ⟨-, hle⟩ := hplaced.reserved h hne
    exact u16_of_lt (by rw [uint16Max] at hcount; omega)

/-- The calls of `mappedRun`. -/
theorem conversions_kept_mappedRun :
    let w1 := ((@remount defaultOpts smallMount).run (formattedChip 14 2)).2
    ConversionsKept (formattedChip 14 2).dev.programGranule (mappedRun.foldl (@stepOp defaultOpts) w1) := by
  intro w1
  have hok : (@remount defaultOpts smallMount).run (formattedChip 14 2) = (.ok (), w1) :=
    run_eq_of_isOk (by decide +kernel)
  have hallowed : Steps.Allowed (@stepOp defaultOpts)
      (fun w op => @legalOp defaultOpts w op ∧
        offsetsFit (formattedChip 14 2).dev.programGranule w.fs.sectorSize) mappedRun w1 := by
    decide +kernel
  exact @conversions_kept defaultOpts smallMount (formattedChip 14 2) w1 _
    (List.isEmpty_iff.mp (by decide +kernel)) hok (Steps.ofAllowed _ _ hallowed)

/-! ## Larger sectors -/

/-- The last record and the footer of a sector of 128 KiB, for data up to the offset 130835. -/
def longTail (serial : Nat) : List Nor.Byte :=
  encodeExtentMetadata 7 mdTypeFileRootV1 65535 65300 1 65297 0 true ++ encodeSectorFooter serial true

/-- A formatted chip of five sectors of 128 KiB, with such a record in every data sector. -/
def largeChip : World :=
  let w := ((format { sectorSize := 131072, indexSectors := 2 }).run
    { dev := { mem := Nor.erased (5 * 131072), programGranule := 1, plan := [] }, fs := {}
      files := fun _ => {} }).2
  let mem := [2, 3, 4].foldl (fun m s => Nor.program m (s * 131072 + 131046) (longTail s)) w.dev.mem
  { w with dev := { w.dev with mem := mem } }

/-- The open of a new file `a`. -/
@[reducible] def createA : Op := .openFile 0 [0x61#8] writeFlags

/-- Some conversion has cut the data offset 130835 and the record offset 131030. -/
def cutsOffsets (w : World) : Bool := w.trace.any fun e => decide (e.act = .narrow [130835, 131030, 1])

theorem not_kept_of_cuts {g : Nat} {w : World} (hcut : cutsOffsets w = true) : ¬ ConversionsKept g w := by
  simp only [cutsOffsets, List.any_eq_true, decide_eq_true_eq] at hcut
  obtain ⟨e, he, hact⟩ := hcut
  intro hkept
  exact absurd (hkept.values e he _ hact 131030 (by simp)) (by decide)

/-- A new file in a sector of 128 KiB gets the record offset 65494 for 131030. -/
theorem conversions_not_kept :
    ¬ ∀ (o : Opts) (options : MountOptions) (w0 w1 w : World), w0.trace = [] →
      (@remount o options).run w0 = (.ok (), w1) → Steps (@stepOp o) (@legalOp o) w1 w →
      ConversionsKept w0.dev.programGranule w := by
  intro hall
  obtain ⟨w1, hok, hcut⟩ := exists_run_of (x := @remount lazyOpts smallMount) (w := largeChip)
    (fun w => decide (@legalOp lazyOpts w createA) && cutsOffsets (@stepOp lazyOpts w createA))
    (by decide +kernel)
  rw [Bool.and_eq_true, decide_eq_true_eq] at hcut
  have hrun : Steps (@stepOp lazyOpts) (@legalOp lazyOpts) w1 (@stepOp lazyOpts w1 createA) :=
    .tail createA .refl hcut.1
  have htrace : largeChip.trace = [] := List.isEmpty_iff.mp (by decide +kernel)
  exact not_kept_of_cuts hcut.2 (hall lazyOpts smallMount largeChip w1 _ htrace hok hrun)

end Fastffs
