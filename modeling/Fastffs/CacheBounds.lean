import Fastffs.Estimates
import Fastffs.WriteCache

/-!
# The bounds of a flush

A flush stays in the cache of 256 bytes, goes beyond the metadata offset with blank bytes
only, and programs its own sector only, when the granule divides 32 and the sectors are of
64 KiB at most (`write_cache_bounds`).

The number 32 is the distance of two records.  The window of a shared sector ends there, and
its start need not be aligned.  A larger granule leads the padding over the end of the
sector.  A granule that is no power of two does not divide the cache, and no sector either:
the last flush of a cache of 213 bytes pads to 400 for a granule of 200.
-/

namespace Fastffs

open Prog
open Nor (Byte blank)

/-- The bounds of a flush, for granule `g`, sectors of `S` bytes and a flash of `size` bytes. -/
structure FlushBounds (g S size : Nat) (file : File) (final : Bool) : Prop where
  cache : (flushBytes g final file.cache).length ≤ fileCacheSize
  offset : u16 (file.currentWriteOffset + (flushBytes g final file.cache).length) ≤
    file.currentMetadataOffset + ((flushBytes g final file.cache).length - file.cache.length)
  padding : ∀ i (hi : i < (flushBytes g final file.cache).length),
    file.currentMetadataOffset ≤ file.currentWriteOffset + i → (flushBytes g final file.cache)[i] = blank
  calls : ∀ call ∈ alignedCalls g (file.current * S + file.currentWriteOffset) (flushBytes g final file.cache),
    file.current * S ≤ call.1 ∧ call.1 + call.2.length ≤ (file.current + 1) * S
  inside : (file.current + 1) * S ≤ size

/-- The granule divides the distance of two records, and sector offsets fit in sixteen bits. -/
def granuleFits (w : World) : Prop := w.dev.programGranule ∣ 32 ∧ w.fs.sectorSize ≤ 65536

instance (w : World) : Decidable (granuleFits w) := inferInstanceAs (Decidable (_ ∧ _))

section Bounds

variable {g S c size lo pos fuel : Nat} {src bs : List Byte} {file : File} {final : Bool} {w : World}

/-! ## Calls -/

/-- The padded loop starts no call before an aligned offset that it does not start before. -/
theorem chunkCalls_from (hg : 0 < g) (hdvd : g ∣ lo) (hle : lo ≤ pos) : ∀ call ∈ chunkCalls g fuel
  pos src, lo ≤ call.1 := by
  induction fuel generalizing pos src with
  | zero => exact nofun
  | succ fuel ih =>
    intro call hcall
    rw [chunkCalls] at hcall
    split at hcall
    · cases hcall
    · cases hcall with
      | head =>
        obtain ⟨k, hk⟩ := hdvd
        have hquot : k ≤ pos / g := (Nat.le_div_iff_mul_le hg).mpr (by rw [Nat.mul_comm]; omega)
        have hdiv := Nat.div_add_mod pos g
        have hmul := Nat.mul_le_mul_left g hquot
        change lo ≤ pos - pos % g
        omega
      | tail _ hcall => exact ih (Nat.le_add_right_of_le hle) call hcall

/-- The calls for a range of a sector lie in the sector. -/
theorem alignedCalls_sector {s off : Nat} (hg : 0 < g) (hdvd : g ∣ S) (hle : off + bs.length ≤ S) :
    ∀ call ∈ alignedCalls g (s * S + off) bs, s * S ≤ call.1 ∧ call.1 + call.2.length ≤ (s + 1) * S := by
  intro call hcall
  have hend : s * S + off + bs.length ≤ (s + 1) * S := by
    rw [Nat.add_mul, Nat.one_mul]
    omega
  have haligned := alignedCalls_aligned hg (Nat.mod_eq_zero_of_dvd (hdvd.mul_left (s + 1))) hend call hcall
  refine ⟨?_, haligned.inside⟩
  rw [alignedCalls] at hcall
  split at hcall
  · cases hcall
  · split at hcall
    · cases List.mem_singleton.mp hcall
      exact Nat.le_add_right _ _
    · exact chunkCalls_from hg (hdvd.mul_left s) (Nat.le_add_right _ _) call hcall

/-! ## A flush -/

/-- A multiple of the granule less than a granule beyond a multiple is none beyond. -/
theorem le_of_dvd_of_lt_add {a b : Nat} (ha : g ∣ a) (hb : g ∣ b) (hlt : a < b + g) : a ≤ b := by
  by_contra hnot
  have hsub : g ∣ a - b := Nat.dvd_sub ha hb
  have hle := Nat.le_of_dvd (by omega) hsub
  omega

/-- The flush of a writer with room is within its bounds. -/
theorem flush_bounds (hg : g ∣ 32) (hS : 256 ∣ S) (hsize : c * S ≤ size) (hcurrent : file.current < c)
    (hroom : file.Room g S) (hne : file.cache ≠ []) : FlushBounds g S size file final := by
  have hpos : 0 < g := Nat.pos_of_dvd_of_pos hg (by decide)
  have hle32 : g ≤ 32 := Nat.le_of_dvd (by decide) hg
  have hwindow := hroom.window_of_cache hne
  have hmeta := hwindow.meta_le
  have hcap := hwindow.room
  have hcache := hroom.cache_le
  obtain ⟨hdvd, hlen⟩ := flushBytes_length hpos final file.cache
  have hsector : g ∣ S := (hg.trans (by decide)).trans hS
  have hinside : (file.current + 1) * S ≤ size := (Nat.mul_le_mul_right S hcurrent).trans hsize
  have hend : file.currentWriteOffset + (flushBytes g final file.cache).length ≤ S := by
    rcases hwindow.edge with hedge | ⟨haligned, hedge⟩
    · omega
    · exact le_of_dvd_of_lt_add ((Nat.dvd_add_right haligned).mpr hdvd) hsector (by omega)
  refine ⟨?_, ?_, fun i hi hle => ?_, alignedCalls_sector hpos hsector hend, hinside⟩
  · exact le_of_dvd_of_lt_add hdvd (hg.trans (by decide)) (by rw [fileCacheSize] at hcache ⊢; omega)
  · exact (Nat.mod_le _ _).trans (by omega)
  · exact flushBytes_getElem final file.cache hi (by omega)

end Bounds

/-! ## Runs -/

/-- In every run of calls on a granule that divides 32 and sectors of 64 KiB at most, every
flush is within its bounds. -/
theorem write_cache_bounds [Opts] {options : MountOptions} {w0 w1 w : World} (htrace : w0.trace = [])
    (hmount : (remount options).run w0 = (.ok (), w1))
    (hrun : Steps stepOp (fun w op => legalOp w op ∧ granuleFits w) w1 w) :
    ∀ e ∈ w.trace, ∀ h final, e.act = .flush h final →
      FlushBounds w0.dev.programGranule e.fs.sectorSize w0.dev.size (e.files h) final := by
  have hwatch : ∀ (v : World) shift c, granuleFits v → v.dev.programGranule = w0.dev.programGranule →
      v.fs.sectorSize = sectorSizeOf shift → c ≤ uint16Max → c * sectorSizeOf shift ≤ w0.dev.size →
      Watch w0.dev.programGranule (sectorSizeOf shift) c
        (fun fs file final => FlushBounds w0.dev.programGranule fs.sectorSize w0.dev.size file final)
        fun _ => True := by
    intro v shift c hfits hgranule hsize hcount hsectors
    rw [granuleFits, hgranule, hsize] at hfits
    exact {
      size_ge := sectorSizeOf_ge shift
      size_le := hfits.2
      count_le := hcount
      flush := fun hS hcurrent hroom hne =>
        hS ▸ flush_bounds hfits.1 (Nat.dvd_mul_right _ _) hsectors hcurrent hroom hne
      narrow := fun _ => trivial }
  obtain ⟨S, c, hw⟩ := watched_run htrace hwatch hmount hrun
  intro e he h final hact
  have hmeets := hw.writers.events e he
  rw [Event.Meets, hact] at hmeets
  exact hmeets

/-- A formatted chip of `n` sectors of 256 bytes, with a granule of `g` bytes. -/
def granuleChip (n g : Nat) : World :=
  ((format { sectorSize := 256, indexSectors := 2 }).run
    { dev := { mem := Nor.erased (n * 256), programGranule := g, plan := [] }, fs := {}
      files := fun _ => {} }).2

/-- A file that fills 70 bytes of a sector, and a second one in the 144 bytes between it and the
record of the second. -/
@[reducible] def sharedRun : List Op :=
  [.openFile 0 [0x61#8] writeFlags, .write 0 (List.replicate 67 0x61#8), .close 0,
    .openFile 1 [0x62#8] writeFlags, .write 1 (List.replicate 141 0x62#8), .close 1]

/-- With a granule of 32 bytes the close of each file pads its last bytes. -/
theorem write_cache_bounds_sharedRun :
    let w1 := ((@remount defaultOpts smallMount).run (granuleChip 16 32)).2
    let w := sharedRun.foldl (@stepOp defaultOpts) w1
    ∀ e ∈ w.trace, ∀ h final, e.act = .flush h final →
      FlushBounds (granuleChip 16 32).dev.programGranule e.fs.sectorSize (granuleChip 16 32).dev.size
        (e.files h) final := by
  intro w1 w
  have hok : (@remount defaultOpts smallMount).run (granuleChip 16 32) = (.ok (), w1) :=
    run_eq_of_isOk (by decide +kernel)
  have hallowed : Steps.Allowed (@stepOp defaultOpts)
      (fun w op => @legalOp defaultOpts w op ∧ granuleFits w) sharedRun w1 := by
    decide +kernel
  exact @write_cache_bounds defaultOpts smallMount (granuleChip 16 32) w1 w
    (List.isEmpty_iff.mp (by decide +kernel)) hok (Steps.ofAllowed _ _ hallowed)

/-! ## Larger granules -/

/-- A file of 210 bytes.  With its name in front, 213 bytes are in the cache at the close. -/
@[reducible] def coarseRun : List Op :=
  [.openFile 0 [0x61#8] writeFlags, .write 0 (List.replicate 210 0x61#8), .close 0]

/-- Some last flush of `h` does not fit in the cache, or programs behind its sector. -/
def flushEscapes (g h : Nat) (w : World) : Bool :=
  w.trace.any fun e =>
    let file := e.files h
    let bs := flushBytes g true file.cache
    decide (e.act = .flush h true) &&
      (decide (fileCacheSize < bs.length) ||
        (alignedCalls g (file.current * e.fs.sectorSize + file.currentWriteOffset) bs).any fun call =>
          decide ((file.current + 1) * e.fs.sectorSize < call.1 + call.2.length))

theorem not_bounds_of_escapes {g h size : Nat} {w : World} (hescapes : flushEscapes g h w = true) :
    ¬ ∀ e ∈ w.trace, ∀ h final, e.act = .flush h final → FlushBounds g e.fs.sectorSize size
      (e.files h) final := by
  simp only [flushEscapes, List.any_eq_true, Bool.and_eq_true, Bool.or_eq_true, decide_eq_true_eq] at hescapes
  obtain ⟨e, he, hact, hbeyond⟩ := hescapes
  intro hall
  have hbounds := hall e he h true hact
  rcases hbeyond with hlen | ⟨call, hcall, hend⟩
  · exact absurd hbounds.cache hlen.not_ge
  · exact absurd (hbounds.calls call hcall).2 hend.not_ge

/-- On every backend with granule `g` that is accepted, every flush of every run is within its bounds. -/
def boundsEveryRun (g : Nat) : Prop :=
  ∀ (o : Opts) (options : MountOptions) (w0 w1 w : World), w0.trace = [] → validBackend w0.dev = true →
    w0.dev.programGranule = g → (@remount o options).run w0 = (.ok (), w1) →
    Steps (@stepOp o) (@legalOp o) w1 w → ∀ e ∈ w.trace, ∀ h final, e.act = .flush h final →
      FlushBounds g e.fs.sectorSize w0.dev.size (e.files h) final

/-- The calls are legal, and some last flush of `h` escapes. -/
def escapesIn (g h : Nat) (ops : List Op) (w : World) : Bool :=
  decide (Steps.Allowed (@stepOp defaultOpts) (@legalOp defaultOpts) ops w) &&
    flushEscapes g h (ops.foldl (@stepOp defaultOpts) w)

/-- One run with a flush that escapes. -/
theorem not_boundsEveryRun (g h : Nat) (ops : List Op) (w : World)
    (hstart : (w.trace.isEmpty && validBackend w.dev && decide (w.dev.programGranule = g)) = true)
    (hrun : (isOk ((@remount defaultOpts smallMount).run w).1 &&
      escapesIn g h ops ((@remount defaultOpts smallMount).run w).2) = true) : ¬ boundsEveryRun g := by
  intro hall
  simp only [Bool.and_eq_true, decide_eq_true_eq, List.isEmpty_iff] at hstart
  obtain ⟨w1, hok, hescapes⟩ := exists_run_of (escapesIn g h ops) hrun
  rw [escapesIn, Bool.and_eq_true, decide_eq_true_eq] at hescapes
  exact not_bounds_of_escapes hescapes.2 (hall defaultOpts smallMount w w1 _ hstart.1.1 hstart.1.2 hstart.2 hok
    (Steps.ofAllowed _ _ hescapes.1))

/-- With a granule of 200 bytes a close writes beyond the cache.  With a granule of 64 bytes,
which divides every sector, it programs the next one. -/
theorem write_cache_not_bounded : ¬ boundsEveryRun 200 ∧ ¬ boundsEveryRun 64 := by
  constructor
  · exact not_boundsEveryRun 200 0 coarseRun (granuleChip 25 200) (by decide +kernel) (by decide +kernel)
  · exact not_boundsEveryRun 64 1 sharedRun (granuleChip 16 64) (by decide +kernel) (by decide +kernel)

end Fastffs
