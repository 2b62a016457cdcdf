import Fastffs.FlashSpec

/-!
# The window of a sector reader

The programs that read a data sector see it through the window of a `SectorReader`.  In
`Direct` the same programs are given without one: they read each footer, type and record
from the flash.  On a device that never fails the window shows the flash
(`SectorReader.Shows`), and a program with a window returns what the direct one returns
(`Views`).

A caller may tombstone a record that its walk has passed and go on with the same window.
So the window only has to show the bytes below a limit, which is the cursor of the walk.
-/

namespace Fastffs

open Prog
open Nor (Byte blank)

/-! ## Walks that read the flash -/

namespace Direct

/-- The bytes of a sector, read from the flash. -/
def sectorReaderView (sector off size : Nat) : M (List Byte) := do
  let fs ← getFs
  if sector ≥ fs.sectorCount ∨ off > fs.sectorSize ∨ size > fs.sectorSize - off ∨
      size > mdPreloadMax then
    Prog.throw .invalid
  else flashRead (sector * fs.sectorSize + off) size

/-- The footer of a sector, read from the flash. -/
def readSectorFooter (sector : Nat) : M SectorFooter := do
  let fs ← getFs
  let bs ← sectorReaderView sector (fs.sectorSize - sectorFooterSize) sectorFooterSize
  pure (decodeSectorFooter bs)

/-- The record under `cursor`, read from the flash. -/
def decodeFileMdRecord (sector cursor : Nat) : M (MdRecord × MdWalkResult) := do
  let fs ← getFs
  let t ← sectorReaderView sector (cursor - 1) 1
  let type := byteAt t 0
  if type = blank then pure ({}, .endErased)
  else if cursor < sectorFooterSize + mdFileRecordSize then Prog.throw .corrupt
  else
    let recordStart := cursor - mdFileRecordSize
    if type ≠ mdTypeFileRootV1 ∧ type ≠ mdTypeFileContV1 then
      pure ({ type := type, recordStart := recordStart }, .endInvalid)
    else
      let buf ← sectorReaderView sector recordStart mdFileRecordSize
      if flashBytesErased buf then pure ({}, .endErased)
      else
        let r := mdRecordOf recordStart buf
        pure (r, if mdRecordOk fs sector r then .record else .endInvalid)

/-- A walk before the first record of a sector. -/
def mdWalkInit (sector : Nat) : M MdWalk := do
  let fs ← getFs
  if validDataSector fs sector then pure (.begin fs sector) else Prog.throw .invalid

/-- One step of a walk that reads the flash. -/
def mdWalkNext (walk : MdWalk) : M (MdWalk × MdRecord × MdWalkResult) := do
  if walk.active = false then Prog.throw .invalid
  else if walk.cursor ≤ sectorFooterSize then
    pure ({ walk with active := false }, {}, .endClaimedData)
  else
    let (r, result) ← decodeFileMdRecord walk.sector walk.cursor
    if result = .record then pure (walk.pass r, r, .record)
    else pure ({ walk with active := false }, r, result)

section Keeps

variable {I : World → Prop} [ReadInv I]

instance (sector off size : Nat) : Keeps I (sectorReaderView sector off size) := by
  unfold sectorReaderView; infer_instance

instance (sector : Nat) : Keeps I (readSectorFooter sector) := by
  unfold readSectorFooter; infer_instance

instance (sector cursor : Nat) : Keeps I (decodeFileMdRecord sector cursor) := by
  unfold decodeFileMdRecord; infer_instance

instance (sector : Nat) : Keeps I (mdWalkInit sector) := by
  unfold mdWalkInit; infer_instance

instance (walk : MdWalk) : Keeps I (mdWalkNext walk) := by
  unfold mdWalkNext; infer_instance

end Keeps

end Direct

/-! ## One step of a walk -/

/-- The end of the data a record claims. -/
def MdRecord.dataEnd (r : MdRecord) : Nat := r.dataOff + r.dataLen

section Step

variable {w w' : World} {sector cursor : Nat} {reader reader' : SectorReader} {walk walk' : MdWalk}
  {r : MdRecord} {a : MdWalk × MdRecord × MdWalkResult}

/-- What `decode_file_md_record` has checked of a record. -/
theorem decodeFileMdRecord_record
    (h : (decodeFileMdRecord reader sector cursor).run w = (.ok ((r, .record), reader'), w')) :
    r.recordStart + mdFileRecordSize = cursor ∧ sectorFooterSize ≤ r.recordStart ∧
      r.dataEnd ≤ r.recordStart := by
  rw [decodeFileMdRecord, bind_of_ok (run_getFs w)] at h
  obtain ⟨⟨t, reader1⟩, w1, -, h⟩ := bind_ok h
  dsimp only at h
  split at h
  · cases h
  split at h
  · cases h
  next hcursor =>
    split at h
    · cases h
    obtain ⟨⟨buf, reader2⟩, w2, -, h⟩ := bind_ok h
    dsimp only at h
    split at h
    · cases h
    simp only [run_pure, Prod.mk.injEq, Except.ok.injEq] at h
    obtain ⟨⟨⟨rfl, hok⟩, -⟩, -⟩ := h
    split at hok
    · next hmd =>
      have hdata : (mdRecordOf (cursor - mdFileRecordSize) buf).dataEnd ≤ cursor - mdFileRecordSize := by
        simp only [mdRecordOk, Bool.and_eq_true, decide_eq_true_eq] at hmd
        exact hmd.1.2
      refine ⟨?_, ?_, hdata⟩
      · change cursor - mdFileRecordSize + mdFileRecordSize = cursor
        simp only [mdFileRecordSize, sectorFooterSize] at *
        omega
      · change sectorFooterSize ≤ cursor - mdFileRecordSize
        simp only [mdFileRecordSize, sectorFooterSize] at *
        omega
    · cases hok

/-- A record the walk passes lies right under its cursor. -/
theorem mdWalkNext_record (h : (mdWalkNext reader walk).run w = (.ok ((walk', r, .record), reader'), w')) :
    walk' = walk.pass r ∧ r.recordStart + mdFileRecordSize = walk.cursor ∧
      sectorFooterSize ≤ r.recordStart ∧ r.dataEnd ≤ r.recordStart := by
  rw [mdWalkNext] at h
  split at h
  · cases h
  split at h
  · cases h
  obtain ⟨⟨⟨r', result⟩, reader1⟩, w1, hdecode, h⟩ := bind_ok h
  dsimp only at h
  split at h
  · next hresult =>
    cases hresult
    cases h
    exact ⟨rfl, decodeFileMdRecord_record hdecode⟩
  · next hresult =>
    cases h
    exact absurd rfl hresult

/-- A record the walk passes is decoded from sixteen bytes. -/
theorem mdWalkNext_fields (h : (mdWalkNext reader walk).run w = (.ok ((walk', r, .record), reader'), w')) :
    ∃ buf, r = mdRecordOf r.recordStart buf := by
  rw [mdWalkNext] at h
  split at h
  · cases h
  split at h
  · cases h
  obtain ⟨⟨⟨r', result⟩, reader1⟩, w1, hdecode, h⟩ := bind_ok h
  dsimp only at h
  split at h
  · next hresult =>
    cases hresult
    cases h
    rw [decodeFileMdRecord, bind_of_ok (run_getFs w)] at hdecode
    obtain ⟨⟨t, reader2⟩, w2, -, hdecode⟩ := bind_ok hdecode
    dsimp only at hdecode
    split at hdecode
    · cases hdecode
    split at hdecode
    · cases hdecode
    split at hdecode
    · cases hdecode
    obtain ⟨⟨buf, reader3⟩, w3, -, hdecode⟩ := bind_ok hdecode
    dsimp only at hdecode
    split at hdecode
    · cases hdecode
    simp only [run_pure, Prod.mk.injEq, Except.ok.injEq] at hdecode
    obtain ⟨⟨⟨rfl, -⟩, -⟩, -⟩ := hdecode
    exact ⟨buf, rfl⟩
  · next hresult =>
    cases h
    exact absurd rfl hresult

/-- A walk stays in its sector and goes down. -/
theorem mdWalkNext_place (h : (mdWalkNext reader walk).run w = (.ok (a, reader'), w')) :
    a.1.sector = walk.sector ∧ a.1.cursor ≤ walk.cursor := by
  obtain ⟨walk', r, result⟩ := a
  by_cases hresult : result = .record
  · subst hresult
    obtain ⟨rfl, hplace, -, -⟩ := mdWalkNext_record h
    exact ⟨rfl, by change r.recordStart ≤ walk.cursor; omega⟩
  · rw [mdWalkNext] at h
    split at h
    · cases h
    split at h
    · cases h
      exact ⟨rfl, Nat.le_refl _⟩
    · obtain ⟨b, w1, -, h⟩ := bind_ok h
      dsimp only at h
      split at h
      · cases h
        exact absurd rfl hresult
      · cases h
        exact ⟨rfl, Nat.le_refl _⟩

/-- A walk begins under the footer. -/
theorem mdWalkInit_ok (h : (mdWalkInit reader sector).run w = (.ok (walk, reader'), w')) :
    w' = w ∧ walk = .begin w.fs sector ∧ reader' = reader.enter sector := by
  rw [mdWalkInit, bind_of_ok (run_getFs w)] at h
  split at h
  · cases h
  · cases h
    exact ⟨rfl, rfl, rfl⟩

end Step

/-! ## What a window shows -/

/-- The window lies in the chip, and below `lim` it shows the bytes of the sector. -/
structure SectorReader.Shows (reader : SectorReader) (sector lim : Nat) (w : World) : Prop where
  reverse : reader.reverse = true
  capacity : reader.capacity = mdPreloadMax
  place : reader.sector = sector
  fits : reader.data ≠ [] →
    sector * w.fs.sectorSize + reader.start + reader.data.length ≤ w.dev.size
  shows : ∀ i < reader.data.length, reader.start + i < lim →
    reader.data.getD i blank = Nor.get w.dev.mem (sector * w.fs.sectorSize + reader.start + i)

/-- A reader that has loaded nothing. -/
theorem SectorReader.shows_new (sector lim : Nat) (w : World) :
    ({ sector := sector } : SectorReader).Shows sector lim w where
  reverse := rfl
  capacity := rfl
  place := rfl
  fits h := absurd rfl h
  shows i hi := absurd hi (Nat.not_lt_zero i)

section Shows

variable {reader : SectorReader} {sector lim lim' off size : Nat} {w : World}

theorem SectorReader.enter_new : ({} : SectorReader).enter sector = { sector := sector } := by
  unfold SectorReader.enter
  split
  · next h =>
    cases h
    rfl
  · rfl

theorem SectorReader.enter_capacity : (reader.enter sector).capacity = reader.capacity := by
  unfold SectorReader.enter
  split <;> rfl

theorem SectorReader.enter_self : ({ sector := sector } : SectorReader).enter sector = { sector := sector } :=
  if_pos rfl

theorem SectorReader.Shows.enter (h : reader.Shows sector lim w) : reader.enter sector = reader :=
  if_pos h.place

theorem SectorReader.Shows.mono (h : reader.Shows sector lim w) (hle : lim' ≤ lim) :
    reader.Shows sector lim' w :=
  { h with shows := fun i hi hlt => h.shows i hi (by omega) }

/-- A window that shows the bytes below `lim` shows them as long as they stay. -/
theorem SectorReader.Shows.congr {w' : World} (h : reader.Shows sector lim w)
    (hsectorSize : w'.fs.sectorSize = w.fs.sectorSize) (hsize : w'.dev.size = w.dev.size)
    (hbytes : ∀ a < lim, Nor.get w'.dev.mem (sector * w.fs.sectorSize + a) =
      Nor.get w.dev.mem (sector * w.fs.sectorSize + a)) : reader.Shows sector lim w' :=
  { h with
    fits := fun hne => by
      rw [hsectorSize, hsize]
      exact h.fits hne
    shows := fun i hi hlt => by
      rw [hsectorSize, h.shows i hi hlt, Nat.add_assoc, hbytes _ hlt] }

/-- The bytes of the window are those a read of the flash returns. -/
theorem SectorReader.Shows.bytes_eq (h : reader.Shows sector lim w) (hstart : reader.start ≤ off)
    (hend : off + size ≤ reader.start + reader.data.length) (hlim : off + size ≤ lim) :
    reader.bytes off size = Nor.read w.dev.mem (sector * w.fs.sectorSize + off) size := by
  have hlen : (reader.bytes off size).length = size := by
    rw [SectorReader.bytes, List.length_take, List.length_drop]
    omega
  refine Nor.ext_getD (hlen.trans (Nor.length_read ..).symm) fun i hi => ?_
  rw [hlen] at hi
  have hbyte := h.shows (off - reader.start + i) (by omega) (by omega)
  rw [Nor.getD_read _ _ _ _ _ hi, SectorReader.bytes]
  rw [show sector * w.fs.sectorSize + reader.start + (off - reader.start + i) =
    sector * w.fs.sectorSize + off + i by omega] at hbyte
  rw [← hbyte]
  simp only [List.getD_eq_getElem?_getD, List.getElem?_take, List.getElem?_drop, if_pos hi]

/-- A window that has just been loaded shows the flash. -/
theorem SectorReader.Shows.load (h : reader.Shows sector lim w) (start len : Nat)
    (hfits : sector * w.fs.sectorSize + start + len ≤ w.dev.size) :
    ({ reader with
        start := start
        data := Nor.read w.dev.mem (sector * w.fs.sectorSize + start) len } : SectorReader).Shows
      sector lim w :=
  { h with
    fits := fun _ => by
      change sector * w.fs.sectorSize + start + (Nor.read _ _ len).length ≤ w.dev.size
      rwa [Nor.length_read]
    shows := fun i hi _ => Nor.getD_read _ _ _ _ _ (by rwa [Nor.length_read] at hi) }

end Shows

/-! ## Programs with a window -/

/-- `x` returns what `y` returns and changes nothing.  The reader it hands back shows the sector
below `lim`. -/
def Views {α : Type} (w : World) (sector lim : Nat) (x : M (α × SectorReader)) (y : M α) : Prop :=
  ∃ r reader, y.run w = (r, w) ∧ x.run w = (r.map fun a => (a, reader), w) ∧ reader.Shows sector lim w

section Rules

variable {α β : Type} {w : World} {sector lim : Nat} {x : M (α × SectorReader)} {y : M α}
  {f : α × SectorReader → M (β × SectorReader)} {g : α → M β}

theorem Views.pure {reader : SectorReader} (a : α) (h : reader.Shows sector lim w) :
    Views w sector lim (Pure.pure (a, reader)) (Pure.pure a) :=
  ⟨.ok a, reader, rfl, rfl, h⟩

theorem Views.throw (e : Status) : Views (α := α) w sector lim (Prog.throw e) (Prog.throw e) :=
  ⟨.error e, _, rfl, rfl, SectorReader.shows_new sector lim w⟩

theorem Views.bind (hx : Views w sector lim x y) (hf : ∀ a reader, reader.Shows sector lim w →
    Views w sector lim (f (a, reader)) (g a)) : Views w sector lim (x >>= f) (y >>= g) := by
  obtain ⟨r, reader, h1, h2, h3⟩ := hx
  cases r with
  | error e => exact ⟨.error e, reader, bind_of_error h1, bind_of_error h2, h3⟩
  | ok a =>
    obtain ⟨r, reader', h4, h5, h6⟩ := hf a reader h3
    exact ⟨r, reader', (bind_of_ok h1).trans h4, (bind_of_ok h2).trans h5, h6⟩

theorem Views.getFs {f : Fs → M (β × SectorReader)} {g : Fs → M β} (h : Views w sector lim (f w.fs) (g w.fs)) :
    Views w sector lim (Fastffs.getFs >>= f) (Fastffs.getFs >>= g) := by
  obtain ⟨r, reader, h1, h2, h3⟩ := h
  exact ⟨r, reader, (bind_of_ok (run_getFs w)).trans h1, (bind_of_ok (run_getFs w)).trans h2, h3⟩

theorem Views.ite {c : Prop} [Decidable c] {x' : M (α × SectorReader)} {y' : M α}
    (h : Views w sector lim x y) (h' : Views w sector lim x' y') :
    Views w sector lim (if c then x else x') (if c then y else y') := by
  split
  · exact h
  · exact h'

/-- The rule for a program that drops its reader at the end. -/
theorem Views.into {f : α × SectorReader → M β} (hx : Views w sector lim x y)
    (hf : ∀ a reader, x.run w = (.ok (a, reader), w) → reader.Shows sector lim w →
      (f (a, reader)).run w = (g a).run w) : (x >>= f).run w = (y >>= g).run w := by
  obtain ⟨r, reader, h1, h2, h3⟩ := hx
  cases r with
  | error e => rw [bind_of_error h1, bind_of_error h2]
  | ok a => rw [bind_of_ok h1, bind_of_ok h2, hf a reader h2 h3]

/-- The program with a window follows the direct one. -/
theorem Views.ok {w' : World} {a : α} (h : Views w sector lim x y) (hy : y.run w = (.ok a, w')) :
    ∃ reader, x.run w = (.ok (a, reader), w) ∧ reader.Shows sector lim w := by
  obtain ⟨r, reader, h1, h2, h3⟩ := h
  rw [hy] at h1
  cases h1
  exact ⟨reader, h2, h3⟩

/-- The direct program follows the one with a window. -/
theorem Views.back {w' : World} {a : α} {reader : SectorReader} (h : Views w sector lim x y)
    (hx : x.run w = (.ok (a, reader), w')) :
    y.run w = (.ok a, w) ∧ w' = w ∧ reader.Shows sector lim w := by
  obtain ⟨r, reader', h1, h2, h3⟩ := h
  rw [h2] at hx
  cases r with
  | error e => cases hx
  | ok b =>
    cases hx
    exact ⟨h1, rfl, h3⟩

theorem Views.error {w' : World} {e : Status} (h : Views w sector lim x y) (hy : y.run w = (.error e, w')) :
    x.run w = (.error e, w) := by
  obtain ⟨r, reader, h1, h2, -⟩ := h
  rw [hy] at h1
  cases h1
  exact h2

end Rules

section Quiet

variable {w : World} {sector lim off size cursor : Nat} {reader : SectorReader} {walk : MdWalk}

/-- `fffs_sector_reader_view` shows the flash. -/
theorem sectorReaderView_views (hplan : w.dev.plan = []) (h : (reader.enter sector).Shows sector lim w)
    (hle : off + size ≤ lim) :
    Views w sector lim (sectorReaderView reader sector off size)
      (Direct.sectorReaderView sector off size) := by
  have hcap : reader.capacity = mdPreloadMax := SectorReader.enter_capacity.symm.trans h.capacity
  unfold sectorReaderView Direct.sectorReaderView
  refine Views.getFs ?_
  rw [hcap]
  split
  · exact Views.throw _
  next hin =>
  dsimp only
  generalize reader.enter sector = reader at h ⊢
  split
  · next hholds =>
    -- the window was loaded with these bytes, so they lie in the chip
    simp only [SectorReader.holds, Bool.and_eq_true, decide_eq_true_eq] at hholds
    have hfits := h.fits fun hnil => hholds.1.1.1 (List.length_eq_zero_iff.mpr hnil)
    rw [h.bytes_eq hholds.1.1.2 (by omega) hle]
    exact ⟨_, reader, flashRead_run hplan (by omega), rfl, h⟩
  · -- the window ends where the view does, so both loads or neither leave the chip
    have hspan : reader.span w.fs.sectorSize off size =
        (off + size - min mdPreloadMax (off + size), min mdPreloadMax (off + size)) := by
      rw [SectorReader.span, if_pos h.reverse, h.capacity]
    rw [hspan]
    dsimp only
    generalize hlen : min mdPreloadMax (off + size) = len
    have hend : off + size - len + len = off + size := by omega
    by_cases hchip : sector * w.fs.sectorSize + off + size ≤ w.dev.size
    · have hload := h.load (off + size - len) len (by omega)
      refine ⟨_, _, flashRead_run hplan hchip, ?_, hload⟩
      rw [bind_of_ok (flashRead_run hplan (by omega))]
      rw [hload.bytes_eq (by change off + size - len ≤ off; omega)
        (by
          change off + size ≤ off + size - len + (Nor.read _ _ len).length
          rw [Nor.length_read, hend]) hle]
      rfl
    · refine ⟨.error .io, reader, flashRead_outside hplan hchip, ?_, h⟩
      rw [bind_of_error (flashRead_outside hplan (by change ¬ _ ≤ w.dev.size; omega))]
      rfl

/-- The footer of a sector, seen by a reader that has loaded nothing. -/
theorem readSectorFooter_views (hplan : w.dev.plan = []) (hnew : reader.enter sector = { sector := sector }) :
    Views w sector (w.fs.sectorSize + sectorFooterSize) (readSectorFooter reader sector)
      (Direct.readSectorFooter sector) := by
  refine Views.getFs ?_
  refine (sectorReaderView_views hplan ?_ (by omega)).bind fun bs reader hreader => Views.pure _ hreader
  rw [hnew]
  exact SectorReader.shows_new ..

theorem decodeFileMdRecord_views (hplan : w.dev.plan = []) (h : reader.Shows sector lim w)
    (hcursor : 0 < cursor) (hle : cursor ≤ lim) :
    Views w sector lim (decodeFileMdRecord reader sector cursor) (Direct.decodeFileMdRecord sector cursor) := by
  refine Views.getFs ?_
  refine (sectorReaderView_views hplan (h.enter.symm ▸ h) (by omega)).bind fun t reader hreader => ?_
  dsimp only
  split
  · exact Views.pure _ hreader
  split
  · exact Views.throw _
  next hroom =>
  split
  · exact Views.pure _ hreader
  refine (sectorReaderView_views hplan (hreader.enter.symm ▸ hreader) (by omega)).bind
    fun buf reader hreader => ?_
  exact Views.ite (Views.pure _ hreader) (Views.pure _ hreader)

/-- `fffs_md_walk_init` goes on with the window it is given. -/
theorem mdWalkInit_views (h : (reader.enter sector).Shows sector lim w) :
    Views w sector lim (mdWalkInit reader sector) (Direct.mdWalkInit sector) := by
  have hcap : reader.capacity = mdPreloadMax := SectorReader.enter_capacity.symm.trans h.capacity
  refine Views.getFs ?_
  rw [hcap]
  cases hv : validDataSector w.fs sector with
  | false =>
    rw [if_pos (.inr rfl), if_neg (by decide)]
    exact Views.throw _
  | true =>
    rw [if_neg (by decide), if_pos rfl]
    exact Views.pure _ h

theorem mdWalkNext_views (hplan : w.dev.plan = []) (h : reader.Shows walk.sector lim w)
    (hle : walk.cursor ≤ lim) :
    Views w walk.sector lim (mdWalkNext reader walk) (Direct.mdWalkNext walk) := by
  unfold mdWalkNext Direct.mdWalkNext
  by_cases hactive : walk.active = false
  · rw [if_pos (.inl hactive), if_pos hactive]
    exact Views.throw _
  · rw [if_neg (not_or.mpr ⟨hactive, fun hne => hne h.place.symm⟩), if_neg hactive]
    split
    · exact Views.pure _ h
    · refine (decodeFileMdRecord_views hplan h (by omega) hle).bind fun a reader hreader => ?_
      exact Views.ite (Views.pure _ hreader) (Views.pure _ hreader)

/-- The reader that has shown the footer follows the walk from there. -/
theorem mdWalkInit_back {w' : World} {reader' : SectorReader}
    (h : reader.Shows sector (w.fs.sectorSize + sectorFooterSize) w)
    (hrun : (mdWalkInit reader sector).run w = (.ok (walk, reader'), w')) :
    (Direct.mdWalkInit sector).run w = (.ok walk, w) ∧ w' = w ∧ walk = .begin w.fs sector ∧
      reader'.Shows walk.sector walk.cursor w := by
  obtain ⟨hdirect, hw, hshows⟩ := (mdWalkInit_views (h.enter.symm ▸ h)).back hrun
  obtain ⟨-, rfl, -⟩ := mdWalkInit_ok hrun
  exact ⟨hdirect, hw, rfl, hshows.mono ((Nat.sub_le _ _).trans (Nat.le_add_right _ _))⟩

/-- What a step with a window returns, the direct step returns.  The reader follows its walk down the
sector. -/
theorem mdWalkNext_back {w' : World} {a : MdWalk × MdRecord × MdWalkResult} {reader' : SectorReader}
    (hplan : w.dev.plan = []) (h : reader.Shows walk.sector walk.cursor w)
    (hrun : (mdWalkNext reader walk).run w = (.ok (a, reader'), w')) :
    (Direct.mdWalkNext walk).run w = (.ok a, w) ∧ w' = w ∧ reader'.Shows a.1.sector a.1.cursor w := by
  obtain ⟨hdirect, hw, hshows⟩ := (mdWalkNext_views hplan h (Nat.le_refl _)).back hrun
  obtain ⟨hsector, hcursor⟩ := mdWalkNext_place hrun
  exact ⟨hdirect, hw, hsector.symm ▸ hshows.mono hcursor⟩

/-- A direct step is a step with a window. -/
theorem mdWalkNext_shows {w' : World} {a : MdWalk × MdRecord × MdWalkResult} (hplan : w.dev.plan = [])
    (h : reader.Shows walk.sector walk.cursor w) (hnext : (Direct.mdWalkNext walk).run w = (.ok a, w')) :
    ∃ reader', (mdWalkNext reader walk).run w = (.ok (a, reader'), w) ∧
      reader'.Shows a.1.sector a.1.cursor w := by
  obtain ⟨reader', hrun, -⟩ := (mdWalkNext_views hplan h (Nat.le_refl _)).ok hnext
  exact ⟨reader', hrun, (mdWalkNext_back hplan h hrun).2.2⟩

end Quiet

end Fastffs
