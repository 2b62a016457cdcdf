import Fastffs.ReadHandle
import Fastffs.IndexHistory

/-!
# Reading comes to an end

`fffs_seek` always returns.  `fffs_read` counts bytes, not extents: it returns exactly when no
ring of empty extents comes before the bytes it has to deliver (`read_returns`).
-/

namespace Fastffs

open Prog
open Nor (Mem Byte blank)

/-! ## Rings of empty extents -/

/-- The sector after the extent of the record `r`. -/
def linkOf (sector : Nat) (r : MdRecord) : Nat := if r.spanLen > 1 then u16 (sector + 1) else r.next

/-- The sector that a read handle of the slot goes to from a sector. -/
def linkFrom (w : World) (slot sector : Nat) : Option Nat :=
  if sector = 0 then none else (extentAt w slot sector).map (linkOf sector)

/-- The bytes that a read handle of the slot finds in a sector. -/
def lenAt (w : World) (slot sector : Nat) : Nat :=
  if sector = 0 then 0 else (extentAt w slot sector).elim 0 MdRecord.dataLen

/-- Fewer than `want` bytes stand before a ring of empty extents. -/
def starves (w : World) (f : File) (want : Nat) : Prop :=
  Links.Starves (linkFrom w f.slot) (lenAt w f.slot) (want - (f.currentDataLen - f.currentDataPos))
    f.nextSector

/-- The extent of a handle lies on the flash, and its fields have sixteen bits. -/
structure HandleInside (w : World) (f : File) : Prop where
  len : f.currentDataLen < 65536
  span : f.spanLen < 65536
  inside : f.current * w.fs.sectorSize + f.dataOffset + f.currentDataLen ≤ w.dev.size

section Starving

variable {w : World} {f g : File} {h want fuel : Nat} {bs : List Byte}

theorem HandleInside.place_congr (hplace : f.place = g.place) (hg : HandleInside w g) : HandleInside w f := by
  have hplaced : HandleInside w f.place := by
    rw [hplace]
    exact { hg with }
  exact { hplaced with }

theorem starves_place_congr (hplace : f.place = g.place) : starves w f want ↔ starves w g want := by
  change starves w f.place want ↔ starves w g.place want
  rw [hplace]

theorem linkFrom_of_extent {slot sector : Nat} {r : MdRecord} (hzero : sector ≠ 0)
    (hr : extentAt w slot sector = some r) :
    linkFrom w slot sector = some (linkOf sector r) ∧ lenAt w slot sector = r.dataLen := by
  rw [linkFrom, lenAt, if_neg hzero, if_neg hzero, hr]
  exact ⟨rfl, rfl⟩

theorem linkFrom_eq_none {slot sector : Nat} (h : sector = 0 ∨ extentAt w slot sector = none) :
    linkFrom w slot sector = none := by
  rw [linkFrom]
  split
  · rfl
  · next hzero =>
    rw [h.resolve_left hzero]
    rfl

/-- A handle that moves on to the next extent is as far from a ring as before. -/
theorem Arrives.starves_iff (ha : Arrives w f g) : starves w f want ↔ starves w g want := by
  rcases ha with ⟨-, rfl⟩ | ⟨hend, hzero, r, hr, rfl⟩
  · exact Iff.rfl
  · obtain ⟨hlink, hlen⟩ := linkFrom_of_extent hzero hr
    rw [starves, Nat.sub_eq_zero_of_le hend, Nat.sub_zero, Links.starves_iff, hlen]
    constructor
    · rintro ⟨b, hb, hstarves⟩
      rw [hlink] at hb
      cases hb
      exact hstarves
    · intro hstarves
      exact ⟨_, hlink, hstarves⟩

theorem Arrives.pos_le (ha : Arrives w f g) : g.currentDataPos ≤ g.currentDataLen := by
  rcases ha with ⟨hdata, rfl⟩ | ⟨-, -, r, -, rfl⟩
  · exact Nat.le_of_lt hdata
  · exact Nat.zero_le _

/-- A handle that enters an extent is inside it. -/
theorem handleInside_enter {slot sector offset pos : Nat} {r : MdRecord}
    (hsize : w.fs.sectorCount * w.fs.sectorSize ≤ w.dev.size) (hr : extentAt w slot sector = some r) :
    HandleInside w (f.enter sector r offset pos) := by
  obtain ⟨hsector, hlen, hspan, hend⟩ := extentAt_bounds hr
  refine ⟨hlen, hspan, ?_⟩
  have hnext : (sector + 1) * w.fs.sectorSize ≤ w.fs.sectorCount * w.fs.sectorSize :=
    Nat.mul_le_mul_right _ hsector
  rw [Nat.succ_mul] at hnext
  change sector * w.fs.sectorSize + r.dataOff + r.dataLen ≤ w.dev.size
  rw [MdRecord.dataEnd] at hend
  omega

theorem Arrives.inside (ha : Arrives w f g) (hf : HandleInside w f)
    (hsize : w.fs.sectorCount * w.fs.sectorSize ≤ w.dev.size) : HandleInside w g := by
  rcases ha with ⟨-, rfl⟩ | ⟨-, -, r, hr, rfl⟩
  · exact hf
  · exact handleInside_enter hsize hr

/-- The place of a handle after the bytes of a round. -/
theorem advance_dataPos (hlen : g.currentDataLen < 65536) (hpos : g.currentDataPos ≤ g.currentDataLen)
    (htakes : Takes w g want bs) :
    (g.advance bs.length).currentDataPos = g.currentDataPos + bs.length := by
  have hle := htakes.le
  exact u32_of_lt (by omega)

/-- The bytes of a round leave a handle as far from a ring as before. -/
theorem Takes.starves_iff (hlen : g.currentDataLen < 65536) (hpos : g.currentDataPos ≤ g.currentDataLen)
    (htakes : Takes w g want bs) :
    starves w g want ↔ starves w (g.advance bs.length) (want - bs.length) := by
  have hle := htakes.le
  have hwant : want - bs.length - ((g.advance bs.length).currentDataLen -
      (g.advance bs.length).currentDataPos) = want - (g.currentDataLen - g.currentDataPos) := by
    rw [advance_dataPos hlen hpos htakes]
    change want - bs.length - (g.currentDataLen - (g.currentDataPos + bs.length)) = _
    omega
  rw [starves, starves, hwant]
  exact Iff.rfl

/-- A handle that is about to starve never returns. -/
theorem readLoop_starves {plan : List Fault} (hplan : noFault plan)
    (hsize : w.fs.sectorCount * w.fs.sectorSize ≤ w.dev.size) (hf : HandleInside w f)
    (hstarves : starves w f want) :
    ((readLoop h fuel want).run (w.withFile h f plan)).1 = .error .diverges := by
  have hwant : 0 < want := Nat.lt_of_lt_of_le hstarves.pos (Nat.sub_le _ _)
  induction fuel generalizing f want plan with
  | zero =>
    rw [readLoop, if_neg (Nat.pos_iff_ne_zero.mp hwant)]
    rfl
  | succ fuel ih =>
    obtain ⟨plan', f', hplan', hround⟩ := readLoop_round w h fuel f plan hwant
    rcases hround with ⟨bs, ⟨⟨g, ha, htakes, hplace, -⟩, -⟩, hrun⟩ | ⟨e, -, -, ⟨-, hends⟩ | ⟨g, ha, -, hpast, -⟩⟩
    · have hg := ha.inside hf hsize
      have hg' : HandleInside w (g.advance bs.length) := { hg with }
      have hafter : starves w f' (want - bs.length) := by
        rw [starves_place_congr hplace, ← htakes.starves_iff hg.len ha.pos_le, ← ha.starves_iff]
        exact hstarves
      have hrest := ih (hplan' hplan) (hg'.place_congr hplace) hafter
        (Nat.lt_of_lt_of_le hafter.pos (Nat.sub_le _ _))
      rw [hrun, bind_of_error (Prod.ext hrest rfl)]
    · obtain ⟨hend, hstop⟩ := hends hplan
      rw [starves, Links.starves_iff, linkFrom_eq_none hstop] at hstarves
      obtain ⟨b, hb, -⟩ := hstarves
      cases hb
    · have hin := (ha.inside hf hsize).inside
      have hpos := ha.pos_le
      have hout := hpast hplan
      rw [pastFlash, File.dataAddress] at hout
      omega

/-- Enough rounds for a handle that does not starve: a byte takes a round, and between two bytes no sector
is visited twice. -/
def enoughRounds (w : World) (f : File) (want fuel : Nat) : Prop :=
  want = 0 ∨ ∃ n, (f.currentDataPos < f.currentDataLen ∨
      Links.Leaves (linkFrom w f.slot) (lenAt w f.slot) n f.nextSector) ∧
    (want - 1) * (w.fs.sectorCount + 1) + n < fuel

theorem linkFrom_sector {slot sector : Nat} (h : linkFrom w slot sector ≠ none) :
    sector ∈ Finset.range w.fs.sectorCount := by
  rw [linkFrom] at h
  split at h
  · exact absurd rfl h
  · cases hr : extentAt w slot sector with
    | none =>
      rw [hr] at h
      exact absurd rfl h
    | some r => exact Finset.mem_range.mpr (extentAt_bounds hr).1

/-- A handle that does not starve comes to data within as many extents as there are sectors. -/
theorem enoughRounds_of_not_starves (hstarves : ¬ starves w f want)
    (hfuel : want * (w.fs.sectorCount + 1) ≤ fuel) : enoughRounds w f want fuel := by
  cases want with
  | zero => exact .inl rfl
  | succ want =>
    refine .inr ⟨w.fs.sectorCount, ?_, ?_⟩
    · by_cases hdata : f.currentDataPos < f.currentDataLen
      · exact .inl hdata
      · have hrest : f.currentDataLen - f.currentDataPos = 0 := by omega
        rw [starves, hrest] at hstarves
        have hleaves := Links.leaves_of_not_starves (S := Finset.range w.fs.sectorCount)
          (fun _ hne => linkFrom_sector hne) (Nat.succ_pos _) hstarves
        rw [Finset.card_range] at hleaves
        exact .inr hleaves
    · rw [Nat.succ_mul] at hfuel
      change want * _ + _ < _
      omega

theorem Arrives.len (ha : Arrives w f g) (hf : f.currentDataLen < 65536) : g.currentDataLen < 65536 := by
  rcases ha with ⟨-, rfl⟩ | ⟨-, -, r, hr, rfl⟩
  · exact hf
  · exact (extentAt_bounds hr).2.1

/-- A round uses up one of the rounds. -/
theorem enoughRounds_step {f' : File} (hwant : 0 < want) (ha : Arrives w f g) (htakes : Takes w g want bs)
    (hplace : f'.place = (g.advance bs.length).place) (hstarves : ¬ starves w f' (want - bs.length))
    (hfuel : enoughRounds w f want (fuel + 1)) : enoughRounds w f' (want - bs.length) fuel := by
  rcases hfuel with rfl | ⟨n, hleaves, hlt⟩
  · exact absurd hwant (Nat.lt_irrefl 0)
  rcases Nat.eq_zero_or_pos bs.length with hnone | hsome
  · -- an empty extent: its handle stands one link further
    have hempty : ¬ g.currentDataPos < g.currentDataLen := fun hdata => by
      have hpos := htakes.pos hwant hdata
      omega
    rcases ha with ⟨hdata, rfl⟩ | ⟨hend, hzero, r, hr, rfl⟩
    · exact absurd hdata hempty
    obtain ⟨hlink, hlen⟩ := linkFrom_of_extent hzero hr
    have hslot := congrArg File.slot hplace
    have hnext := congrArg File.nextSector hplace
    change f'.slot = f.slot at hslot
    change f'.nextSector = linkOf f.nextSector r at hnext
    rw [hnone, Nat.sub_zero]
    cases hleaves.resolve_left (Nat.not_lt_of_le hend) with
    | stop hstop =>
      rw [hlink] at hstop
      cases hstop
    | weighs hweighs =>
      rw [hlen] at hweighs
      exact absurd hweighs hempty
    | step hstep hrest =>
      rw [hlink] at hstep
      cases hstep
      refine .inr ⟨_, .inr ?_, Nat.lt_of_succ_lt_succ hlt⟩
      rw [hslot, hnext]
      exact hrest
  · refine enoughRounds_of_not_starves hstarves ?_
    have hle : want - bs.length ≤ want - 1 := Nat.sub_le_sub_left hsome want
    have hmul := Nat.mul_le_mul_right (w.fs.sectorCount + 1) hle
    omega

/-- A handle that does not starve returns, on any device. -/
theorem readLoop_returns {plan : List Fault} (hlen : f.currentDataLen < 65536) (hstarves : ¬ starves w f want)
    (hfuel : enoughRounds w f want fuel) :
    ((readLoop h fuel want).run (w.withFile h f plan)).1 ≠ .error .diverges := by
  induction fuel generalizing f want plan with
  | zero =>
    rcases hfuel with rfl | ⟨n, -, hlt⟩
    · exact nofun
    · exact absurd hlt (Nat.not_lt_zero _)
  | succ fuel ih =>
    rcases Nat.eq_zero_or_pos want with rfl | hwant
    · exact nofun
    obtain ⟨plan', f', -, hround⟩ := readLoop_round w h fuel f plan hwant
    rcases hround with ⟨bs, ⟨⟨g, ha, htakes, hplace, -⟩, -⟩, hrun⟩ | ⟨e, he, hrun, -⟩
    · have hafter : ¬ starves w f' (want - bs.length) := by
        rw [starves_place_congr hplace, ← htakes.starves_iff (ha.len hlen) ha.pos_le, ← ha.starves_iff]
        exact hstarves
      have hlen' : f'.currentDataLen < 65536 := by
        have heq := congrArg File.currentDataLen hplace
        change f'.currentDataLen = g.currentDataLen at heq
        rw [heq]
        exact ha.len hlen
      have hrest : ((readLoop h fuel (want - bs.length)).run (w.withFile h f' plan')).1 ≠ .error .diverges :=
        ih hlen' hafter (enoughRounds_step hwant ha htakes hplace hafter hfuel)
      rw [hrun]
      intro heq
      rcases bind_error (Prod.ext heq rfl) with hfirst | ⟨rest, w1, -, hpure⟩
      · exact hrest (congrArg Prod.fst hfirst)
      · cases hpure
    · rw [hrun]
      exact fun heq => he (Except.error.inj heq)

end Starving

/-! ## What a call leaves -/

/-- What the calls of a read handle never change in it. -/
def File.identity (f : File) : Bool × Access × Nat × Nat × Nat := (f.closed, f.access, f.slot, f.head, f.size)

/-- The world is `w` up to the plan of the device and the handle `h`, which is still the handle `f` of the same
file and still inside its extent. -/
def StaysInside (w : World) (h : Nat) (f : File) (v : World) : Prop :=
  ∃ f' plan, v = w.withFile h f' plan ∧ HandleInside w f' ∧ f'.identity = f.identity

section Calls

variable {w : World} {f : File} {h target : Nat} {plan : List Fault}

theorem HandleInside.stays (hf : HandleInside w f) : StaysInside w h f (w.withFile h f plan) :=
  ⟨f, plan, rfl, hf, rfl⟩

theorem StaysInside.trans {g : File} {v : World} (hg : g.identity = f.identity) (hv : StaysInside w h g v) :
    StaysInside w h f v := by
  obtain ⟨f', plan, rfl, hin, hid⟩ := hv
  exact ⟨f', plan, rfl, hin, hid.trans hg⟩

theorem Arrives.identity {g : File} (ha : Arrives w f g) : g.identity = f.identity := by
  rcases ha with ⟨-, rfl⟩ | ⟨-, -, r, -, rfl⟩
  · rfl
  · rfl

theorem identity_of_place {g : File} (hplace : f.place = g.place) : f.identity = g.identity := by
  change f.place.identity = g.place.identity
  rw [hplace]

theorem snd_bind_pure {α β : Type} (x : M α) (g : α → β) (v : World) :
    ((x >>= fun a => pure (g a)).run v).2 = (x.run v).2 := by
  rw [run_bind]
  rcases x.run v with ⟨_ | a, v'⟩
  · rfl
  · rfl

/-- The loop of `fffs_read`. -/
theorem readLoop_inside {want fuel : Nat} (hsize : w.fs.sectorCount * w.fs.sectorSize ≤ w.dev.size)
    (hf : HandleInside w f) :
    StaysInside w h f ((readLoop h fuel want).run (w.withFile h f plan)).2 := by
  induction fuel generalizing f want plan with
  | zero =>
    rw [readLoop]
    split
    · exact hf.stays
    · exact hf.stays
  | succ fuel ih =>
    rcases Nat.eq_zero_or_pos want with rfl | hwant
    · exact hf.stays
    obtain ⟨plan', f', -, hround⟩ := readLoop_round w h fuel f plan hwant
    rcases hround with ⟨bs, ⟨⟨g, ha, -, hplace, -⟩, -⟩, hrun⟩ | ⟨e, -, hrun, ⟨rfl, -⟩ | ⟨g, ha, hplace, -, -⟩⟩
    · have hg : HandleInside w (g.advance bs.length) := { ha.inside hf hsize with }
      have hid : f'.identity = f.identity := (identity_of_place hplace).trans ha.identity
      rw [hrun, snd_bind_pure]
      exact (ih (hg.place_congr hplace)).trans hid
    · rw [hrun]
      exact hf.stays
    · rw [hrun]
      exact ((ha.inside hf hsize).place_congr hplace).stays.trans
        ((identity_of_place hplace).trans ha.identity)

/-- The loop of `seek_from_current_position`. -/
theorem seekLoop_ends {depth : Nat} (hsize : w.fs.sectorCount * w.fs.sectorSize ≤ w.dev.size)
    (hf : HandleInside w f) :
    ((seekLoop h target depth).run (w.withFile h f plan)).1 ≠ .error .diverges ∧
      StaysInside w h f ((seekLoop h target depth).run (w.withFile h f plan)).2 := by
  induction depth generalizing f plan with
  | zero => exact ⟨(fun hno => by cases hno), hf.stays⟩
  | succ depth ih =>
    rw [seekLoop, bind_of_ok (run_getFile h _), withFile_files]
    split
    · have hhunt : Hunted w h f target 1 (f.spanLen - 1) plan
          ((huntCurrentSpan h target).run (w.withFile h f plan)) := huntCurrentSpan_hunted hf.span
      generalize hout : (huntCurrentSpan h target).run (w.withFile h f plan) = out at hhunt
      cases hhunt with
      | @missed plan1 hplan =>
        rw [bind_of_ok hout, if_neg Bool.false_ne_true]
        split
        · exact ⟨(fun hno => by cases hno), hf.stays⟩
        · obtain ⟨plan2, -, ⟨r, hr, hrun⟩ | ⟨e, he, -, hrun⟩⟩ :=
            readMdForSlot_cases (w.withFile h f plan1) f.slot f.nextSector
          · have hworld : (w.withFile h f plan1).withPlan plan2 = w.withFile h f plan2 := rfl
            rw [extentAt_withFile] at hr
            rw [bind_of_ok hrun, hworld, bind_of_ok (run_modifyFile_withFile _),
              withFile_withFile, withFile_files]
            have hin : HandleInside w (f.enter f.nextSector r
                (u32 (f.currentFileOffset + f.currentDataLen)) 0) := handleInside_enter hsize hr
            exact ⟨(ih hin).1, (ih hin).2.trans rfl⟩
          · rw [bind_of_error hrun]
            exact ⟨fun heq => he (Except.error.inj heq), hf.stays⟩
      | @found _ guess r hplan hlow hhigh hr hle hlt =>
        rw [bind_of_ok hout, if_pos rfl]
        have hin : HandleInside w (f.enter (u16 (f.current + guess)) r r.fileOffset (target - r.fileOffset)) :=
          handleInside_enter hsize hr
        exact ⟨(fun hno => by cases hno), _, _, rfl, { hin with }, rfl⟩
      | failed hplan he hnone =>
        rw [bind_of_error hout]
        exact ⟨fun heq => he (Except.error.inj heq), hf.stays⟩
    · rw [run_modifyFile_withFile, withFile_withFile, withFile_files]
      exact ⟨(fun hno => by cases hno), _, _, rfl, { hf with }, rfl⟩

/-- The payload of a root lies in its sector. -/
theorem RootRead.inside {slot head : Nat} {useCache : Bool} {r : MdRecord} {root : RootMd}
    (hsize : w.fs.sectorCount * w.fs.sectorSize ≤ w.dev.size) (hroot : RootRead w slot head useCache r root) :
    root.payloadDataLen < 65536 ∧ r.spanLen < 65536 ∧
      head * w.fs.sectorSize + root.payloadDataOff + root.payloadDataLen ≤ w.dev.size := by
  obtain ⟨hsector, -, hspan, hend⟩ := extentAt_bounds hroot.extent
  refine ⟨by rw [hroot.dataLen]; exact u16_lt _, hspan, ?_⟩
  have hnext : (head + 1) * w.fs.sectorSize ≤ w.fs.sectorCount * w.fs.sectorSize :=
    Nat.mul_le_mul_right _ hsector
  have hoff := Nat.mod_le (r.dataOff + payloadOffset w head r) 65536
  have hlen := Nat.mod_le (r.dataLen - payloadOffset w head r) 65536
  have hle := hroot.payload_le
  rw [Nat.succ_mul] at hnext
  rw [MdRecord.dataEnd] at hend
  rw [hroot.dataOff, hroot.dataLen, u16, u16]
  omega

/-- `seek_read_position`. -/
theorem seekReadPosition_ends (hsize : w.fs.sectorCount * w.fs.sectorSize ≤ w.dev.size)
    (hf : HandleInside w f) :
    ((seekReadPosition h target).run (w.withFile h f plan)).1 ≠ .error .diverges ∧
      StaysInside w h f ((seekReadPosition h target).run (w.withFile h f plan)).2 := by
  rw [seekReadPosition, bind_of_ok (run_get _), withFile_files, withFile_fs]
  by_cases hback : target < f.currentFileOffset
  · rw [when_pos hback]
    obtain ⟨plan', -, ⟨root, hroot, hrun⟩ | ⟨e, he, -, hrun⟩⟩ := resetReadPositionToRoot_cases w h f plan
    · obtain ⟨r, hread⟩ := headRootAt_ok hroot
      obtain ⟨hlen, hspan, hin⟩ := hread.inside hsize
      have hroot : HandleInside w (f.atRoot root) := by
        refine ⟨hlen, ?_, hin⟩
        change root.spanLen < 65536
        rw [hread.spanLen]
        exact hspan
      rw [bind_of_ok hrun]
      exact ⟨(seekLoop_ends hsize hroot).1, (seekLoop_ends hsize hroot).2.trans rfl⟩
    · rw [bind_of_error hrun]
      exact ⟨fun heq => he (Except.error.inj heq), hf.stays⟩
  · rw [when_neg hback, bind_of_ok (run_pure _ _)]
    exact seekLoop_ends hsize hf

/-- `fffs_seek` returns, on any device. -/
theorem seek_ends {offset : Int} {whence : Whence} (hsize : w.fs.sectorCount * w.fs.sectorSize ≤ w.dev.size)
    (hf : HandleInside w f) :
    ((seek h offset whence).run (w.withFile h f plan)).1 ≠ .error .diverges ∧
      StaysInside w h f ((seek h offset whence).run (w.withFile h f plan)).2 := by
  rw [seek, bind_of_ok (run_getFile h _), withFile_files]
  split
  · exact ⟨(fun hno => by cases hno), hf.stays⟩
  dsimp only
  have hends : ∀ target : Int,
      ((if target < 0 ∨ target > f.size then throw .range else do
        seekReadPosition h target.toNat
        let file ← getFile h
        pure file.pos : M Nat).run (w.withFile h f plan)).1 ≠ .error .diverges ∧
      StaysInside w h f ((if target < 0 ∨ target > f.size then throw .range else do
        seekReadPosition h target.toNat
        let file ← getFile h
        pure file.pos : M Nat).run (w.withFile h f plan)).2 := by
    intro target
    split
    · exact ⟨(fun hno => by cases hno), hf.stays⟩
    have hends : ((seekReadPosition h target.toNat).run (w.withFile h f plan)).1 ≠ .error .diverges ∧
        StaysInside w h f ((seekReadPosition h target.toNat).run (w.withFile h f plan)).2 :=
      seekReadPosition_ends hsize hf
    rcases hrun : (seekReadPosition h target.toNat).run (w.withFile h f plan) with ⟨res, v⟩
    rw [hrun] at hends
    cases res with
    | error e =>
      rw [bind_of_error hrun]
      exact ⟨fun heq => hends.1 (congrArg Except.error (Except.error.inj heq)), hends.2⟩
    | ok u =>
      rw [bind_of_ok hrun, bind_of_ok (run_getFile h v)]
      exact ⟨(fun hno => by cases hno), hends.2⟩
  exact hends _

/-- `fffs_read` leaves its handle inside its extent. -/
theorem read_inside {size : Nat} (hsize : w.fs.sectorCount * w.fs.sectorSize ≤ w.dev.size)
    (hf : HandleInside w f) : StaysInside w h f ((read h size).run (w.withFile h f plan)).2 := by
  rw [read, bind_of_ok (run_get _), withFile_files]
  dsimp only
  split
  · exact hf.stays
  · exact readLoop_inside hsize hf

end Calls

/-! ## Calls of one handle -/

/-- A call of a read handle, with the answers of the device to it. -/
inductive HandleCall where
  | read (size : Nat) (plan : List Fault)
  | seek (offset : Int) (whence : Whence) (plan : List Fault)

/-- The world after a call, whatever it returns. -/
def callStep (h : Nat) (w : World) : HandleCall → World
  | .read size plan => ((read h size).run (w.withPlan plan)).2
  | .seek offset whence plan => ((seek h offset whence).run (w.withPlan plan)).2

/-- The bytes that a call of `fffs_read` has to deliver. -/
def wanted (f : File) (size : Nat) : Nat := min size (f.size - f.pos)

/-- A handle that `fffs_open` has opened to read. -/
structure ReadHandle (w : World) (h : Nat) : Prop where
  sectors : w.fs.sectorCount * w.fs.sectorSize ≤ w.dev.size
  inside : HandleInside w (w.files h)
  open_ : (w.files h).closed = false
  access : (w.files h).access = .rdonly

section Runs

variable {w v : World} {h size : Nat} {plan : List Fault}

theorem ReadHandle.stays (hw : ReadHandle w h) (hv : StaysInside w h (w.files h) v) : ReadHandle v h := by
  obtain ⟨f', plan, rfl, hin, hid⟩ := hv
  have hclosed := congrArg Prod.fst hid
  have haccess := congrArg (fun k => k.2.1) hid
  refine ⟨hw.sectors, ?_, ?_, ?_⟩
  · rw [withFile_files]
    exact { hin with }
  · rw [withFile_files]
    exact hclosed.trans hw.open_
  · rw [withFile_files]
    exact haccess.trans hw.access

theorem ReadHandle.step (hw : ReadHandle w h) (call : HandleCall) : ReadHandle (callStep h w call) h := by
  cases call with
  | read size plan =>
    refine hw.stays ?_
    rw [callStep, withPlan_eq_withFile]
    exact read_inside hw.sectors hw.inside
  | seek offset whence plan =>
    refine hw.stays ?_
    rw [callStep, withPlan_eq_withFile]
    exact (seek_ends hw.sectors hw.inside).2

/-- `fffs_read` of an open handle is its loop. -/
theorem read_run (hopen : (w.files h).closed = false) (haccess : (w.files h).access = .rdonly) :
    (read h size).run (w.withPlan plan) =
      (readLoop h ((wanted (w.files h) size + 1) * (w.fs.sectorCount + 2)) (wanted (w.files h) size)).run
        (w.withFile h (w.files h) plan) := by
  have hok : ¬ ((w.files h).closed = true ∨ (w.files h).access ≠ .rdonly) := by
    rw [hopen, haccess]
    simp
  rw [withPlan_eq_withFile, read, bind_of_ok (run_get _), withFile_files]
  exact congrFun (congrArg Prog.run (if_neg hok)) _

theorem ReadHandle.read_run (hw : ReadHandle w h) :
    (read h size).run (w.withPlan plan) =
      (readLoop h ((wanted (w.files h) size + 1) * (w.fs.sectorCount + 2)) (wanted (w.files h) size)).run
        (w.withFile h (w.files h) plan) := Fastffs.read_run hw.open_ hw.access

/-- A call of `fffs_read` returns exactly when its handle does not starve. -/
theorem ReadHandle.returns_iff (hw : ReadHandle w h) :
    (∀ plan, ((read h size).run (w.withPlan plan)).1 ≠ .error .diverges) ↔
      ¬ starves w (w.files h) (wanted (w.files h) size) := by
  constructor
  · intro hall hstarves
    refine hall [] ?_
    rw [hw.read_run]
    exact readLoop_starves noFault_nil hw.sectors hw.inside hstarves
  · intro hstarves plan
    rw [hw.read_run]
    refine readLoop_returns hw.inside.len hstarves (enoughRounds_of_not_starves hstarves ?_)
    exact Nat.mul_le_mul (Nat.le_succ _) (Nat.le_succ _)

variable [Opts] {o : MountOptions} {name : List Byte} {flags : OpenFlags} {w0 w1 w2 : World}

theorem ReadHandle.ofOpen (hmount : (mount o).run w0 = (.ok (), w1)) (hflags : flags.rdonly = true)
    (hopen : (openFile h name flags).run w1 = (.ok (), w2)) : ReadHandle w2 h := by
  have hsectors := mount_sectors hmount
  obtain ⟨slot, head, r, root, plan, hroot, rfl⟩ := openFile_rdonly hflags hopen
  obtain ⟨hlen, hspan, hin⟩ := hroot.inside hsectors
  have hfile : ((w1.withFile h (File.ofRoot slot head root r.spanLen) plan).enlist h).files h =
      File.ofRoot slot head root r.spanLen := if_pos rfl
  refine ⟨hsectors, ?_, ?_, ?_⟩
  · rw [hfile]
    exact ⟨hlen, hspan, hin⟩
  · rw [hfile]
    rfl
  · rw [hfile]
    rfl

/-- After a mount and an open, and any calls of the handle: `fffs_seek` returns, and `fffs_read` returns
exactly when no ring of empty extents comes before the wanted bytes.  At such a ring no number of rounds
is enough. -/
theorem read_returns (hmount : (mount o).run w0 = (.ok (), w1)) (hflags : flags.rdonly = true)
    (hopen : (openFile h name flags).run w1 = (.ok (), w2))
    (hcalls : Steps (callStep h) (fun _ _ => True) w2 w) :
    (∀ offset whence plan, ((seek h offset whence).run (w.withPlan plan)).1 ≠ .error .diverges) ∧
      ∀ size, ((∀ plan, ((read h size).run (w.withPlan plan)).1 ≠ .error .diverges) ↔
          ¬ starves w (w.files h) (wanted (w.files h) size)) ∧
        (starves w (w.files h) (wanted (w.files h) size) → ∀ rounds,
          ((readLoop h rounds (wanted (w.files h) size)).run (w.withPlan [])).1 = .error .diverges) := by
  have hw : ReadHandle w h := hcalls.invariant (I := fun u => ReadHandle u h)
    (fun _ call hu _ => hu.step call) (ReadHandle.ofOpen hmount hflags hopen)
  refine ⟨fun offset whence plan => ?_, fun size => ⟨hw.returns_iff, fun hstarves rounds => ?_⟩⟩
  · rw [withPlan_eq_withFile]
    exact (seek_ends hw.sectors hw.inside).1
  · rw [withPlan_eq_withFile]
    exact readLoop_starves noFault_nil hw.sectors hw.inside hstarves

omit [Opts] in
/-- Six sectors of 256 bytes, two of them for the index, with a file `a` of `size` bytes.  Its root in sector
2 has no payload and leads to sector 3, where the record of a continuation with no data leads to `next`. -/
def hollowFile (size next : Nat) : World :=
  let slot := normalizeSlotBase (hash16 [0x61#8])
  let root := encodeExtentMetadata slot mdTypeFileRootV1 0 3 1 size 3 true ++ encodeSectorFooter 1 true
  let cont := encodeExtentMetadata slot mdTypeFileContV1 0 0 1 0 next true ++ encodeSectorFooter 2 true
  let index := Nor.program (formattedChip 6 2).dev.mem 8 (storeLe16 slot ++ storeLe16 2)
  { formattedChip 6 2 with
    dev := { mem := Nor.program (Nor.program (Nor.program index 512 [1#8, 0x61#8, 0#8]) 742 root) 998 cont
             programGranule := 1
             plan := [] } }

def readFlags : OpenFlags := { rdonly := true }

omit [Opts] in
/-- A chain that ends: the read of a byte that is not there returns. -/
theorem read_returns_short :
    let w1 := ((@mount defaultOpts smallMount).run (hollowFile 1 0)).2
    let w2 := ((@openFile defaultOpts 0 [0x61#8] readFlags).run w1).2
    ∀ plan, ((read 0 1).run (w2.withPlan plan)).1 ≠ .error .diverges := by
  intro w1 w2
  have hmount : (@mount defaultOpts smallMount).run (hollowFile 1 0) = (.ok (), w1) :=
    run_eq_of_isOk (by decide +kernel)
  have hopen : (@openFile defaultOpts 0 [0x61#8] readFlags).run w1 = (.ok (), w2) :=
    run_eq_of_isOk (by decide +kernel)
  have hnext : (w2.files 0).nextSector = 3 ∧ linkFrom w2 (w2.files 0).slot 3 = some 0 := by decide +kernel
  clear_value w1 w2
  refine ((@read_returns w2 0 defaultOpts smallMount [0x61#8] readFlags (hollowFile 1 0) w1 w2 hmount rfl hopen
    .refl).2 1).1.mpr fun hstarves => ?_
  rw [starves, hnext.1, Links.starves_iff] at hstarves
  obtain ⟨b, hb, hrest⟩ := hstarves
  rw [hnext.2] at hb
  cases hb
  rw [Links.starves_iff, linkFrom_eq_none (.inl rfl)] at hrest
  obtain ⟨b, hb, -⟩ := hrest
  cases hb

omit [Opts] in
/-- A continuation with no data that leads to itself: the image mounts, the file opens, and the read of one
byte never returns. -/
theorem read_never_returns :
    let w1 := ((@mount defaultOpts smallMount).run (hollowFile 1 3)).2
    let w2 := ((@openFile defaultOpts 0 [0x61#8] readFlags).run w1).2
    (@mount defaultOpts smallMount).run (hollowFile 1 3) = (.ok (), w1) ∧
      (@openFile defaultOpts 0 [0x61#8] readFlags).run w1 = (.ok (), w2) ∧
      ((read 0 1).run (w2.withPlan [])).1 = .error .diverges ∧
      ∀ rounds, ((readLoop 0 rounds (wanted (w2.files 0) 1)).run (w2.withPlan [])).1 = .error .diverges := by
  intro w1 w2
  have hmount : (@mount defaultOpts smallMount).run (hollowFile 1 3) = (.ok (), w1) :=
    run_eq_of_isOk (by decide +kernel)
  have hopen : (@openFile defaultOpts 0 [0x61#8] readFlags).run w1 = (.ok (), w2) :=
    run_eq_of_isOk (by decide +kernel)
  have hnext : (w2.files 0).nextSector = 3 ∧ Links.follow (linkFrom w2 (w2.files 0).slot) 1 3 = some 3 ∧
      Links.weight (linkFrom w2 (w2.files 0).slot) (lenAt w2 (w2.files 0).slot) 1 3 = 0 ∧
      0 < wanted (w2.files 0) 1 - ((w2.files 0).currentDataLen - (w2.files 0).currentDataPos) := by
    decide +kernel
  clear_value w1 w2
  have hstarves : starves w2 (w2.files 0) (wanted (w2.files 0) 1) := by
    rw [starves, hnext.1]
    exact ⟨0, 3, rfl, ⟨1, Nat.one_pos, hnext.2.1, hnext.2.2.1⟩, hnext.2.2.2⟩
  have hw : ReadHandle w2 0 := @ReadHandle.ofOpen 0 defaultOpts smallMount [0x61#8] readFlags
    (hollowFile 1 3) w1 w2
    hmount rfl hopen
  have hloop : ∀ rounds,
      ((readLoop 0 rounds (wanted (w2.files 0) 1)).run (w2.withFile 0 (w2.files 0) [])).1 = .error .diverges :=
    fun rounds => readLoop_starves noFault_nil hw.sectors hw.inside hstarves
  refine ⟨hmount, hopen, ?_, fun rounds => ?_⟩
  · rw [hw.read_run]
    exact hloop _
  · rw [withPlan_eq_withFile]
    exact hloop rounds

end Runs

end Fastffs
