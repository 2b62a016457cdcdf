import Fastffs.IndexArea
import Fastffs.RecordBytes

/-!
# The records of a sector

Records grow down from the footer of a sector and data grow up from its start.  `Recorded`
says what the bytes of a sector are once a list of records has been written: the records
under the footer in the order of the list, their data below, and blank bytes between.  A walk
returns the list (`walkSector_recorded`), and an allocation, the second step of a begun
record, a tombstone and a full mark lead from one such sector to the next.
-/

namespace Fastffs

open Prog
open Nor (Mem Byte blank)

/-! ## One sector -/

/-- The world has sectors of `S` bytes, of which `n` of `c` are index sectors, and `s` is a data
sector on a device that never fails. -/
structure SectorAt (S c n s : Nat) (w : World) : Prop where
  sectorSize : w.fs.sectorSize = S
  sectorCount : w.fs.sectorCount = c
  indexSectors : w.fs.indexSectors = n
  scratch : 0 < w.fs.scratchSize
  granule : 0 < w.dev.programGranule
  aligned : w.dev.size % w.dev.programGranule = 0
  plan : w.dev.plan = []
  size_ge : 256 ≤ S
  data : n ≤ s
  lt : s < c
  inside : (s + 1) * S ≤ w.dev.size

/-- The bytes of sector `s` from `lo` to `hi` may have changed, and other sectors. -/
structure Touches (S s lo hi : Nat) (w w' : World) : Prop where
  sectorSize : w'.fs.sectorSize = w.fs.sectorSize
  sectorCount : w'.fs.sectorCount = w.fs.sectorCount
  indexSectors : w'.fs.indexSectors = w.fs.indexSectors
  scratchSize : w'.fs.scratchSize = w.fs.scratchSize
  granule : w'.dev.programGranule = w.dev.programGranule
  plan : w'.dev.plan = w.dev.plan
  size : w'.dev.size = w.dev.size
  bytes : ∀ a, a < S → a < lo ∨ hi ≤ a → Nor.get w'.dev.mem (s * S + a) = Nor.get w.dev.mem (s * S + a)

/-- What the walk checks of the link of a record. -/
def MdRecord.Linked (c n s : Nat) (r : MdRecord) : Prop :=
  r.state = blank ∨ r.spanLen ≠ 0 ∧ s + r.spanLen ≤ c ∧ (r.next = 0 ∨ n ≤ r.next ∧ r.next < c)

/-- A record as the code writes it. -/
structure MdRecord.Written (c n s : Nat) (r : MdRecord) : Prop extends r.Encodable where
  type : r.type = mdTypeFileRootV1 ∨ r.type = mdTypeFileContV1
  state : r.state = lifecycleValid ∨ r.state = blank ∨ r.state = lifecycleTombstoned
  linked : r.Linked c n s

/-- The bytes of sector `s` are those of the records `rs`, and blank from `free` up to the last
of them. -/
structure Recorded (S c n s : Nat) (rs : List MdRecord) (free : Nat) (w : World) : Prop where
  place : SectorAt S c n s w
  stacked : Stacked (S - sectorFooterSize) rs
  written : ∀ r ∈ rs, r.Written c n s
  bytes : ∀ r ∈ rs, Nor.read w.dev.mem (s * S + r.recordStart) mdFileRecordSize = r.bytes
  claimed : claimedEnd 0 rs ≤ free
  free_le : free ≤ lowest (S - sectorFooterSize) rs
  gap : ∀ a, free ≤ a → a < lowest (S - sectorFooterSize) rs → Nor.get w.dev.mem (s * S + a) = blank
  apart : rs.Pairwise fun r r' => r.dataEnd ≤ r'.dataOff
  footer : (rs = [] ∧ ∀ a, S - sectorFooterSize ≤ a → a < S → Nor.get w.dev.mem (s * S + a) = blank) ∨
    rs ≠ [] ∧ ∃ serial full,
      Nor.read w.dev.mem (s * S + (S - sectorFooterSize)) sectorFooterSize = footerBytes serial full

section Stack

variable {S c n s cursor k : Nat} {rs : List MdRecord} {r : MdRecord}

theorem lowest_append : lowest cursor (rs ++ [r]) = r.recordStart := by
  induction rs generalizing cursor with
  | nil => rfl
  | cons r' rs ih => exact ih

theorem claimedEnd_append : claimedEnd k (rs ++ [r]) = max (claimedEnd k rs) r.dataEnd := by
  induction rs generalizing k with
  | nil => rfl
  | cons r' rs ih => exact ih

/-- One more record under the others. -/
theorem Stacked.append (h : Stacked cursor rs) (hplace : r.recordStart + mdFileRecordSize = lowest cursor rs)
    (hfooter : sectorFooterSize ≤ r.recordStart) (hdata : r.dataEnd ≤ r.recordStart) :
    Stacked cursor (rs ++ [r]) := by
  induction rs generalizing cursor with
  | nil => exact ⟨hplace, hfooter, hdata, trivial⟩
  | cons r' rs ih => exact ⟨h.1, h.2.1, h.2.2.1, ih h.2.2.2 hplace⟩

theorem Stacked.lowest_eq (h : Stacked cursor rs) : lowest cursor rs + mdFileRecordSize * rs.length = cursor := by
  induction rs generalizing cursor with
  | nil => exact Nat.add_zero _
  | cons r rs ih =>
    have hrest := ih h.2.2.2
    have hplace := h.1
    rw [lowest, List.length_cons, Nat.mul_succ]
    omega

theorem Stacked.start_lt (h : Stacked cursor rs) (hr : r ∈ rs) : r.recordStart + mdFileRecordSize ≤ cursor := by
  induction rs generalizing cursor with
  | nil => cases hr
  | cons r' rs ih =>
    cases hr with
    | head => exact h.1.le
    | tail _ hr =>
      have hplace := h.1
      have hlt := ih h.2.2.2 hr
      omega

/-- The state of a record as written tells whether it is live. -/
theorem MdRecord.Written.live_iff (h : r.Written c n s) : r.live = true ↔ r.state = lifecycleValid := by
  rw [h.live]
  rcases h.state with hs | hs | hs <;> rw [hs] <;> decide

theorem MdRecord.Written.type_ne (h : r.Written c n s) : r.type ≠ blank := by
  rcases h.type with ht | ht <;> rw [ht] <;> decide

/-- The walk accepts a record as written. -/
theorem MdRecord.Written.ok {fs : Fs} (h : r.Written c n s) (hc : fs.sectorCount = c) (hn : fs.indexSectors = n)
    (hdata : r.dataEnd ≤ r.recordStart) : mdRecordOk fs s r = true := by
  have hstate : (r.state == blank || r.live || lifecycleValidPair r.state == .cleared) = true := by
    rcases h.state with hs | hs | hs
    · rw [h.live_iff.mpr hs, Bool.or_true, Bool.true_or]
    · rw [hs]
      rfl
    · rw [hs, show (lifecycleValidPair lifecycleTombstoned == .cleared) = true by decide, Bool.or_true]
  rw [mdRecordOk, hstate, Bool.true_and, Bool.and_eq_true]
  refine ⟨decide_eq_true hdata, ?_⟩
  rcases h.linked with hblank | ⟨hspan, hend, hnext⟩
  · rw [hblank]
    rfl
  · rw [hc, hn]
    simp only [Bool.or_eq_true, Bool.and_eq_true, decide_eq_true_eq]
    exact .inr ⟨⟨hspan, hend⟩, hnext⟩

end Stack

/-! ## The walk -/

section Walk

variable {S c n s free : Nat} {all rs : List MdRecord} {r : MdRecord} {walk : MdWalk} {w : World}

theorem SectorAt.view (hp : SectorAt S c n s w) {off k : Nat} (hle : off + k ≤ S) (hk : k ≤ mdPreloadMax) :
    (Direct.sectorReaderView s off k).run w = (.ok (Nor.read w.dev.mem (s * S + off) k), w) := by
  have hin := hp.inside
  rw [Nat.succ_mul] at hin
  rw [Direct.sectorReaderView, bind_of_ok (run_getFs w), hp.sectorCount, hp.sectorSize, if_neg]
  · exact flashRead_run hp.plan (by omega)
  · have hlt := hp.lt
    omega

theorem SectorAt.valid (hp : SectorAt S c n s w) : validDataSector w.fs s = true := by
  rw [validDataSector, hp.indexSectors, hp.sectorCount, decide_eq_true hp.data, decide_eq_true hp.lt]
  rfl

/-- The footer of a sector, seen by a reader that has loaded nothing. -/
theorem SectorAt.readFooter {reader : SectorReader} (hp : SectorAt S c n s w)
    (hnew : reader.enter s = { sector := s }) : ∃ reader', (readSectorFooter reader s).run w =
      (.ok (decodeSectorFooter (Nor.read w.dev.mem (s * S + (S - sectorFooterSize)) sectorFooterSize), reader'), w) ∧
        reader'.Shows s (S + sectorFooterSize) w := by
  have hview : (Direct.sectorReaderView s (S - sectorFooterSize) sectorFooterSize).run w = _ :=
    hp.view (by have := hp.size_ge; simp only [sectorFooterSize]; omega) (by decide)
  have hdirect : (Direct.readSectorFooter s).run w = (.ok (decodeSectorFooter
      (Nor.read w.dev.mem (s * S + (S - sectorFooterSize)) sectorFooterSize)), w) := by
    rw [Direct.readSectorFooter, bind_of_ok (run_getFs w), hp.sectorSize, bind_of_ok hview]
    rfl
  obtain ⟨reader', hrun, hshows⟩ := (readSectorFooter_views hp.plan hnew).ok hdirect
  exact ⟨reader', hrun, hp.sectorSize ▸ hshows⟩

theorem SectorAt.walkInit {reader : SectorReader} (hp : SectorAt S c n s w)
    (hreader : reader.Shows s (S + sectorFooterSize) w) :
    (mdWalkInit reader s).run w = (.ok (.begin w.fs s, reader), w) ∧
      reader.Shows s (MdWalk.begin w.fs s).cursor w := by
  constructor
  · rw [mdWalkInit, bind_of_ok (run_getFs w), hreader.capacity, hp.valid, hreader.enter, if_neg (by decide)]
    rfl
  · rw [MdWalk.begin, hp.sectorSize]
    exact hreader.mono ((Nat.sub_le _ _).trans (Nat.le_add_right _ _))

/-- The walk stands in front of the records `rs` of all the records of the sector. -/
structure MdWalk.Before (S s : Nat) (all : List MdRecord) (walk : MdWalk) (rs : List MdRecord) : Prop where
  sector : walk.sector = s
  mem : ∀ r ∈ rs, r ∈ all
  stacked : Stacked walk.cursor rs
  lowest : lowest walk.cursor rs = lowest (S - sectorFooterSize) all
  claimed : claimedEnd walk.claimedDataEnd rs = claimedEnd 0 all
  active : rs ≠ [] → walk.active = true
  room : walk.active = true → walk.claimedDataEnd < walk.cursor
  cursor_le : walk.cursor ≤ S - sectorFooterSize

theorem Recorded.before (h : Recorded S c n s all free w) : (MdWalk.begin w.fs s).Before S s all all := by
  have hbegin : (MdWalk.begin w.fs s).cursor = S - sectorFooterSize := by
    rw [MdWalk.begin, h.place.sectorSize]
  exact {
    sector := rfl
    mem := fun _ hr => hr
    stacked := hbegin.symm ▸ h.stacked
    lowest := by rw [hbegin]
    claimed := rfl
    active := fun _ => rfl
    room := fun _ => by
      have hge := h.place.size_ge
      rw [hbegin, sectorFooterSize]
      change 0 < S - 10
      omega
    cursor_le := hbegin.le }

/-- The walk passes a record and stands in front of the rest. -/
theorem directNext_passes (h : Recorded S c n s all free w) (hw : walk.Before S s all (r :: rs)) :
    (Direct.mdWalkNext walk).run w = (.ok (walk.pass r, r, .record), w) ∧
      (walk.pass r).Before S s all rs := by
  have hr : r ∈ all := hw.mem r List.mem_cons_self
  have hwritten := h.written r hr
  have hbytes := h.bytes r hr
  have hcursor := hw.cursor_le
  obtain ⟨hplace, hfooter, hdata, hrest⟩ := hw.stacked
  rw [mdFileRecordSize] at hplace
  rw [sectorFooterSize] at hfooter hcursor
  have hge := h.place.size_ge
  have htype : (Direct.sectorReaderView s (walk.cursor - 1) 1).run w = _ :=
    h.place.view (by omega) (by decide)
  have hbyte : byteAt (Nor.read w.dev.mem (s * S + (walk.cursor - 1)) 1) 0 = r.type := by
    have hget : Nor.get w.dev.mem (s * S + r.recordStart + 15) = r.type := by
      rw [← Nor.getD_read w.dev.mem (s * S + r.recordStart) mdFileRecordSize 15 blank (by decide), hbytes]
      rfl
    rw [byteAt, Nor.getD_read _ _ _ _ _ Nat.one_pos, show s * S + (walk.cursor - 1) + 0 =
      s * S + r.recordStart + 15 by omega, hget]
  have hrecord : (Direct.sectorReaderView s r.recordStart mdFileRecordSize).run w = _ :=
    h.place.view (by rw [mdFileRecordSize]; omega) (by decide)
  rw [hbytes] at hrecord
  have hstart : walk.cursor - mdFileRecordSize = r.recordStart := by rw [mdFileRecordSize]; omega
  have hnone : flashBytesErased r.bytes = false := by
    rw [flashBytesErased, List.all_eq_false]
    exact ⟨r.type, by simp [MdRecord.bytes], by simpa using hwritten.type_ne⟩
  have hok := hwritten.ok h.place.sectorCount h.place.indexSectors hdata
  have hdecode : (Direct.decodeFileMdRecord s walk.cursor).run w = (.ok (r, .record), w) := by
    rw [Direct.decodeFileMdRecord, bind_of_ok (run_getFs w), bind_of_ok htype]
    dsimp only
    rw [hbyte, if_neg hwritten.type_ne, if_neg
      (by rw [sectorFooterSize, mdFileRecordSize]; omega), if_neg, hstart,
      bind_of_ok hrecord, hnone, if_neg Bool.false_ne_true, mdRecordOf_bytes hwritten.toEncodable, hok]
    · rfl
    · rintro ⟨hroot, hcont⟩
      exact hwritten.type.elim hroot hcont
  have hactive : rs ≠ [] → (walk.pass r).active = true := by
    intro hne
    obtain ⟨r', rs', rfl⟩ := List.exists_cons_of_ne_nil hne
    have hroom := h.claimed.trans h.free_le
    rw [← hw.claimed, ← hw.lowest] at hroom
    have hnext := hrest.1
    have hlow : lowest r'.recordStart rs' ≤ r'.recordStart := hrest.2.2.2.lowest_le
    have hclaim : max walk.claimedDataEnd r.dataEnd ≤ claimedEnd walk.claimedDataEnd (r :: r' :: rs') :=
      le_claimedEnd
    have hchain : lowest walk.cursor (r :: r' :: rs') = lowest r'.recordStart rs' := rfl
    rw [mdFileRecordSize] at hnext
    exact decide_eq_true (show max walk.claimedDataEnd r.dataEnd < r.recordStart by omega)
  refine ⟨?_, ?_⟩
  · rw [Direct.mdWalkNext, hw.active (List.cons_ne_nil _ _), if_neg (by decide), if_neg
      (by rw [sectorFooterSize]; omega),
      hw.sector, bind_of_ok hdecode]
    rfl
  · exact {
      sector := hw.sector
      mem := fun r' hr' => hw.mem r' (List.mem_cons_of_mem r hr')
      stacked := hrest
      lowest := hw.lowest
      claimed := hw.claimed
      active := hactive
      room := fun hgo => of_decide_eq_true hgo
      cursor_le := by
        change r.recordStart ≤ S - sectorFooterSize
        rw [sectorFooterSize]
        omega }

/-- Behind the last record the walk has stopped, or it stops without an error. -/
theorem directNext_stops (h : Recorded S c n s all (claimedEnd 0 all) w) (hw : walk.Before S s all [])
    (hactive : walk.active = true) : ∃ result, (result = .endErased ∨ result = .endClaimedData) ∧
      (Direct.mdWalkNext walk).run w = (.ok ({ walk with active := false }, {}, result), w) := by
  have hcursor := hw.cursor_le
  have hroom := hw.room hactive
  have hclaimed : walk.claimedDataEnd = claimedEnd 0 all := hw.claimed
  have hlowest : walk.cursor = lowest (S - sectorFooterSize) all := hw.lowest
  by_cases hend : walk.cursor ≤ sectorFooterSize
  · refine ⟨.endClaimedData, .inr rfl, ?_⟩
    rw [Direct.mdWalkNext, hactive, if_neg (by decide), if_pos hend]
    rfl
  · refine ⟨.endErased, .inl rfl, ?_⟩
    have htype : (Direct.sectorReaderView s (walk.cursor - 1) 1).run w = _ :=
      h.place.view (by rw [sectorFooterSize] at hcursor; omega) (by decide)
    have hblank : byteAt (Nor.read w.dev.mem (s * S + (walk.cursor - 1)) 1) 0 = blank := by
      rw [byteAt, Nor.getD_read _ _ _ _ _ Nat.one_pos]
      exact h.gap (walk.cursor - 1) (by omega) (by omega)
    have hdecode : (Direct.decodeFileMdRecord s walk.cursor).run w = (.ok ({}, .endErased), w) := by
      rw [Direct.decodeFileMdRecord, bind_of_ok (run_getFs w), bind_of_ok htype]
      dsimp only
      rw [hblank, if_pos rfl]
      rfl
    rw [Direct.mdWalkNext, hactive, if_neg (by decide), if_neg hend, hw.sector, bind_of_ok hdecode]
    rfl

/-- A walk with a window passes a record and stands in front of the rest. -/
theorem mdWalkNext_passes {reader : SectorReader} (h : Recorded S c n s all free w)
    (hw : walk.Before S s all (r :: rs)) (hreader : reader.Shows walk.sector walk.cursor w) :
    ∃ reader', (mdWalkNext reader walk).run w = (.ok ((walk.pass r, r, .record), reader'), w) ∧
      (walk.pass r).Before S s all rs ∧ reader'.Shows walk.sector r.recordStart w := by
  obtain ⟨hrun, hrest⟩ := directNext_passes h hw
  obtain ⟨reader', hnext, hreader'⟩ := mdWalkNext_shows h.place.plan hreader hrun
  exact ⟨reader', hnext, hrest, hreader'⟩

theorem mdWalkNext_stops {reader : SectorReader} (h : Recorded S c n s all (claimedEnd 0 all) w)
    (hw : walk.Before S s all []) (hactive : walk.active = true)
    (hreader : reader.Shows walk.sector walk.cursor w) : ∃ result reader',
      (result = .endErased ∨ result = .endClaimedData) ∧
        (mdWalkNext reader walk).run w = (.ok (({ walk with active := false }, {}, result), reader'), w) := by
  obtain ⟨result, hresult, hrun⟩ := directNext_stops h hw hactive
  obtain ⟨reader', hnext, -⟩ := mdWalkNext_shows h.place.plan hreader hrun
  exact ⟨result, reader', hresult, hnext⟩

/-- The walk returns the records in front of it. -/
theorem walkRecords_before (h : Recorded S c n s all (claimedEnd 0 all) w) {fuel : Nat}
    (hw : walk.Before S s all rs) (hfuel : rs.length < fuel) :
    (Direct.walkRecords fuel walk).run w = (.ok rs, w) := by
  induction rs generalizing walk fuel with
  | nil =>
    obtain ⟨fuel, rfl⟩ : ∃ k, fuel = k + 1 := ⟨fuel - 1, by omega⟩
    rw [Direct.walkRecords]
    by_cases hactive : walk.active = true
    · obtain ⟨result, hresult, hrun⟩ := directNext_stops h hw hactive
      rw [hactive, if_neg (by decide), bind_of_ok hrun]
      dsimp only
      rw [if_neg (by rcases hresult with rfl | rfl <;> decide)]
      rfl
    · rw [if_pos (Bool.eq_false_iff.mpr hactive)]
      rfl
  | cons r rs ih =>
    obtain ⟨fuel, rfl⟩ : ∃ k, fuel = k + 1 := ⟨fuel - 1, by omega⟩
    obtain ⟨hrun, hrest⟩ := directNext_passes h hw
    rw [List.length_cons] at hfuel
    rw [Direct.walkRecords, hw.active (List.cons_ne_nil _ _), if_neg (by decide), bind_of_ok hrun]
    dsimp only
    rw [if_pos rfl, bind_of_ok (ih hrest (by omega))]
    rfl

theorem Recorded.length_lt (h : Recorded S c n s all free w) : all.length < S := by
  have heq := h.stacked.lowest_eq
  have hge := h.place.size_ge
  rw [mdFileRecordSize, sectorFooterSize] at heq
  omega

/-- The walk of a sector returns what has been written. -/
theorem walkSector_recorded (h : Recorded S c n s all (claimedEnd 0 all) w) :
    (walkSector s).run w = (.ok all, w) := by
  have hinit : (Direct.mdWalkInit s).run w = (.ok (.begin w.fs s), w) := by
    rw [Direct.mdWalkInit, bind_of_ok (run_getFs w), if_pos h.place.valid]
    rfl
  rw [walkSector_direct h.place.plan, Direct.walkSector, bind_of_ok (run_getFs w), bind_of_ok hinit]
  exact walkRecords_before h h.before (h.place.sectorSize.symm ▸ h.length_lt)

theorem visited_recorded (h : Recorded S c n s all (claimedEnd 0 all) w) : visited w s = all := by
  rw [visited, World.withPlan_nil h.place.plan, walkSector_recorded h]

end Walk

/-! ## Changes of the sector -/

section Changes

variable {S c n s free lo hi k a : Nat} {rs front back : List MdRecord} {r r' : MdRecord} {w w' : World} {m : Mem}

theorem SectorAt.touch (hp : SectorAt S c n s w) (h : Touches S s lo hi w w') : SectorAt S c n s w' where
  sectorSize := h.sectorSize.trans hp.sectorSize
  sectorCount := h.sectorCount.trans hp.sectorCount
  indexSectors := h.indexSectors.trans hp.indexSectors
  scratch := h.scratchSize ▸ hp.scratch
  granule := h.granule ▸ hp.granule
  aligned := by
    rw [h.size, h.granule]
    exact hp.aligned
  plan := h.plan.trans hp.plan
  size_ge := hp.size_ge
  data := hp.data
  lt := hp.lt
  inside := h.size ▸ hp.inside

/-- A change of other sectors. -/
theorem Touches.elsewhere (h : Touches S s 0 0 w w') : Touches S s k k w w' :=
  { h with bytes := fun a ha _ => h.bytes a ha (.inr (Nat.zero_le a)) }

theorem Touches.read (h : Touches S s lo hi w w') (hle : a + k ≤ S) (hout : a + k ≤ lo ∨ hi ≤ a) :
    Nor.read w'.dev.mem (s * S + a) k = Nor.read w.dev.mem (s * S + a) k := by
  refine Nor.read_congr fun i hlo hhi => ?_
  have hbyte := h.bytes (i - s * S) (by omega) (by omega)
  rwa [Nat.add_sub_cancel' (by omega)] at hbyte

/-- A window goes on showing what has not changed. -/
theorem SectorReader.Shows.touches {reader : SectorReader} {lim : Nat} (h : reader.Shows s lim w)
    (hS : w.fs.sectorSize = S) (ht : Touches S s lo hi w w') (hle : lim ≤ S) (hout : lim ≤ lo ∨ hi = 0) :
    reader.Shows s lim w' := by
  refine h.congr ht.sectorSize ht.size fun a ha => ?_
  rw [hS]
  exact ht.bytes a (by omega) (by omega)

/-- A program of the sector. -/
theorem Touches.program {off : Nat} {bs : List Byte} (h : w.Becomes (Nor.program w.dev.mem (s * S + off) bs) w')
    (hplan : w.dev.plan = []) : Touches S s off (off + bs.length) w w' := by
  obtain ⟨plan, rfl, hp⟩ := h
  exact ⟨rfl, rfl, rfl, rfl, rfl, (hp hplan).trans hplan.symm, rfl,
    fun a _ hout => Nor.get_program_of_notMem (by omega)⟩

/-- The invariant after a change that leaves the records, the footer and the blank bytes alone. -/
theorem Recorded.outside (h : Recorded S c n s rs free w) (ht : Touches S s lo hi w w') (hlo : free ≤ hi)
    (hhi : hi ≤ lowest (S - sectorFooterSize) rs) : Recorded S c n s rs hi w' := by
  have hlow := h.stacked.lowest_le
  have hge := h.place.size_ge
  rw [sectorFooterSize] at hlow hhi
  refine {
    place := h.place.touch ht
    stacked := h.stacked
    written := h.written
    bytes := fun r hr => ?_
    claimed := h.claimed.trans hlo
    free_le := hhi
    gap := fun a hle hlt => ?_
    apart := h.apart
    footer := h.footer.imp (fun hblank => ⟨hblank.1, fun a hle hlt => ?_⟩) fun hread => ⟨hread.1, ?_⟩ }
  · have hstart := h.stacked.lowest_le_start hr
    have hend := h.stacked.start_lt hr
    rw [mdFileRecordSize, sectorFooterSize] at hend
    rw [sectorFooterSize] at hstart
    rw [ht.read (by rw [mdFileRecordSize]; omega) (by omega)]
    exact h.bytes r hr
  · rw [ht.bytes a (by rw [sectorFooterSize] at hlt; omega) (by omega)]
    exact h.gap a (by omega) hlt
  · rw [ht.bytes a hlt (by rw [sectorFooterSize] at hle; omega)]
    exact hblank.2 a hle hlt
  · rw [ht.read (by rw [sectorFooterSize]; omega) (by rw [sectorFooterSize]; omega)]
    exact hread.2

/-! ### Replacing a record -/

theorem lowest_replace {cursor : Nat} (hstart : r'.recordStart = r.recordStart) :
    lowest cursor (front ++ r' :: back) = lowest cursor (front ++ r :: back) := by
  induction front generalizing cursor with
  | nil => simp [lowest, hstart]
  | cons r1 front ih => exact ih

theorem claimedEnd_replace {cursor : Nat} (hend : r'.dataEnd = r.dataEnd) :
    claimedEnd cursor (front ++ r' :: back) = claimedEnd cursor (front ++ r :: back) := by
  induction front generalizing cursor with
  | nil => simp [claimedEnd, hend]
  | cons r1 front ih => exact ih

theorem Stacked.replace {cursor : Nat} (hstart : r'.recordStart = r.recordStart) (hend : r'.dataEnd = r.dataEnd)
    (h : Stacked cursor (front ++ r :: back)) : Stacked cursor (front ++ r' :: back) := by
  induction front generalizing cursor with
  | nil =>
    obtain ⟨hplace, hfooter, hdata, hrest⟩ := h
    refine ⟨?_, ?_, ?_, ?_⟩
    · rw [hstart]
      exact hplace
    · rw [hstart]
      exact hfooter
    · rw [hstart, hend]
      exact hdata
    · rw [hstart]
      exact hrest
  | cons r1 front ih => exact ⟨h.1, h.2.1, h.2.2.1, ih h.2.2.2⟩

/-- The records in front of a record lie above it, those behind it below. -/
theorem Stacked.split {cursor : Nat} (h : Stacked cursor (front ++ r :: back)) :
    (∀ r1 ∈ front, r.recordStart + mdFileRecordSize ≤ r1.recordStart) ∧
      ∀ r1 ∈ back, r1.recordStart + mdFileRecordSize ≤ r.recordStart := by
  induction front generalizing cursor with
  | nil => exact ⟨nofun, fun r1 hr1 => h.2.2.2.start_lt hr1⟩
  | cons r2 front ih =>
    obtain ⟨habove, hbelow⟩ := ih h.2.2.2
    refine ⟨fun r1 hr1 => ?_, hbelow⟩
    cases hr1 with
    | head => exact h.2.2.2.start_lt (List.mem_append_right front List.mem_cons_self)
    | tail _ hr1 => exact habove r1 hr1

/-- A record that is programmed again in its place. -/
theorem Recorded.replace (h : Recorded S c n s (front ++ r :: back) free w)
    (ht : Touches S s r.recordStart (r.recordStart + mdFileRecordSize) w w')
    (hread : Nor.read w'.dev.mem (s * S + r.recordStart) mdFileRecordSize = r'.bytes)
    (hstart : r'.recordStart = r.recordStart) (hoff : r'.dataOff = r.dataOff) (hlen : r'.dataLen = r.dataLen)
    (hwritten : r'.Written c n s) : Recorded S c n s (front ++ r' :: back) free w' := by
  have hend : r'.dataEnd = r.dataEnd := by rw [MdRecord.dataEnd, hoff, hlen, MdRecord.dataEnd]
  have hmem : r ∈ front ++ r :: back := List.mem_append_right front List.mem_cons_self
  have hlow := h.stacked.lowest_le_start hmem
  have hhigh := h.stacked.start_lt hmem
  have hge := h.place.size_ge
  rw [sectorFooterSize, mdFileRecordSize] at hhigh
  rw [sectorFooterSize] at hlow
  have hother : ∀ r1, r1 ∈ front ++ r :: back → (r.recordStart + mdFileRecordSize ≤ r1.recordStart ∨
      r1.recordStart + mdFileRecordSize ≤ r.recordStart) →
      Nor.read w'.dev.mem (s * S + r1.recordStart) mdFileRecordSize = r1.bytes := by
    intro r1 hr1 hapart
    have hlt := h.stacked.start_lt hr1
    rw [sectorFooterSize] at hlt
    rw [ht.read (by omega) (by omega)]
    exact h.bytes r1 hr1
  obtain ⟨habove, hbelow⟩ := h.stacked.split
  refine {
    place := h.place.touch ht
    stacked := h.stacked.replace hstart hend
    written := fun r1 hr1 => ?_
    bytes := fun r1 hr1 => ?_
    claimed := by
      rw [claimedEnd_replace hend]
      exact h.claimed
    free_le := by
      rw [lowest_replace hstart]
      exact h.free_le
    gap := fun a hle hlt => ?_
    apart := ?_
    footer := .inr ⟨by simp, ?_⟩ }
  · rw [List.mem_append, List.mem_cons] at hr1
    rcases hr1 with hr1 | rfl | hr1
    · exact h.written r1 (List.mem_append_left _ hr1)
    · exact hwritten
    · exact h.written r1 (List.mem_append_right _ (List.mem_cons_of_mem r hr1))
  · rw [List.mem_append, List.mem_cons] at hr1
    rcases hr1 with hr1 | rfl | hr1
    · exact hother r1 (List.mem_append_left _ hr1) (.inl (habove r1 hr1))
    · rw [hstart]
      exact hread
    · exact hother r1 (List.mem_append_right _ (List.mem_cons_of_mem r hr1)) (.inr (hbelow r1 hr1))
  · rw [lowest_replace hstart, sectorFooterSize] at hlt
    rw [ht.bytes a (by omega) (by omega)]
    exact h.gap a hle (by rwa [sectorFooterSize])
  · have hpair := h.apart
    simp only [List.pairwise_append, List.pairwise_cons, List.mem_cons, hend, hoff, forall_eq_or_imp] at hpair ⊢
    exact hpair
  · rcases h.footer with ⟨hnil, -⟩ | ⟨-, serial, full, hfooter⟩
    · simp at hnil
    · refine ⟨serial, full, ?_⟩
      rw [ht.read (by rw [sectorFooterSize]; omega) (by rw [sectorFooterSize, mdFileRecordSize]; omega)]
      exact hfooter

/-! ### The full mark -/

/-- `fffs_mark_sector_full`. -/
theorem Recorded.full (h : Recorded S c n s rs free w) (hne : rs ≠ [])
    (hw : w.Becomes (Nor.program w.dev.mem (s * S + (S - sectorFooterSize + 5)) [lifecycleFull]) w') :
    Recorded S c n s rs free w' := by
  have hlow := h.stacked.lowest_le
  have hge := h.place.size_ge
  have ht := Touches.program hw h.place.plan
  rw [List.length_singleton] at ht
  have hfooter : ∃ serial full, Nor.read w'.dev.mem (s * S + (S - sectorFooterSize)) sectorFooterSize =
      footerBytes serial full := by
    rcases h.footer with ⟨hnil, -⟩ | ⟨-, serial, full, hread⟩
    · exact absurd hnil hne
    · have hparts : footerBytes serial full = (storeLe32 serial ++ [sectorTypeFile]) ++
          [if full then lifecycleValid &&& lifecycleFull else lifecycleValid] ++ sectorMagic := by
        simp [footerBytes]
      have hprogram := Nor.read_program_part (x := [lifecycleFull]) (hread.trans hparts) rfl rfl
      refine ⟨serial, true, ?_⟩
      rw [hw.mem, ← Nat.add_assoc]
      refine hprogram.trans ?_
      cases full with
      | false => simp [footerBytes]
      | true =>
        simp only [footerBytes, if_true, List.zipWith_cons_cons, List.zipWith_nil_left]
        rw [BitVec.and_assoc, BitVec.and_self]
        simp
  refine {
    place := h.place.touch ht
    stacked := h.stacked
    written := h.written
    bytes := fun r hr => ?_
    claimed := h.claimed
    free_le := h.free_le
    gap := fun a hle hlt => ?_
    apart := h.apart
    footer := .inr ⟨hne, hfooter⟩ }
  · have hend := h.stacked.start_lt hr
    rw [ht.read (by omega) (by omega)]
    exact h.bytes r hr
  · rw [ht.bytes a (by omega) (by omega)]
    exact h.gap a hle hlt

/-! ### One more record -/

/-- A record that is programmed under the others, with the footer when it is the first. -/
theorem Recorded.write (h : Recorded S c n s rs free w) {serial : Nat}
    (hplace : r.recordStart + mdFileRecordSize = lowest (S - sectorFooterSize) rs)
    (hfooter : sectorFooterSize ≤ r.recordStart) (hoff : r.dataOff = claimedEnd 0 rs) (hend : r.dataEnd = free)
    (hfree : free ≤ r.recordStart) (hwritten : r.Written c n s)
    (hw : w.Becomes (Nor.program w.dev.mem (s * S + r.recordStart)
      (r.bytes ++ if rs = [] then footerBytes serial false else [])) w') :
    Recorded S c n s (rs ++ [r]) free w' := by
  have hlow := h.stacked.lowest_le
  have hge := h.place.size_ge
  have ht := Touches.program hw h.place.plan
  have hblank : ∀ i, s * S + r.recordStart ≤ i → i < s * S + r.recordStart + mdFileRecordSize →
      Nor.get w.dev.mem i = blank := by
    intro i hlo hhi
    rw [← Nat.add_sub_cancel' (show s * S ≤ i by omega)]
    exact h.gap _ (by omega) (by omega)
  have hread : Nor.read w'.dev.mem (s * S + r.recordStart) mdFileRecordSize = r.bytes ∧
      ∃ serial full, Nor.read w'.dev.mem (s * S + (S - sectorFooterSize)) sectorFooterSize =
        footerBytes serial full := by
    rcases h.footer with ⟨rfl, hfootblank⟩ | ⟨hne, serial', full, hfoot⟩
    · have hstart : S - sectorFooterSize = r.recordStart + mdFileRecordSize := hplace.symm
      rw [if_pos rfl] at hw
      have hall : Nor.read w.dev.mem (s * S + r.recordStart) (mdFileRecordSize + sectorFooterSize) =
          List.replicate (mdFileRecordSize + sectorFooterSize) blank := by
        refine Nor.read_eq_blanks fun i hlo hhi => ?_
        by_cases hfirst : i < s * S + r.recordStart + mdFileRecordSize
        · exact hblank i hlo hfirst
        · rw [← Nat.add_sub_cancel' (show s * S ≤ i by omega)]
          exact hfootblank _ (by omega) (by rw [sectorFooterSize] at *; omega)
      have hprogram := Nor.read_program_blank hall (r.bytes ++ footerBytes serial false) rfl
      rw [← hw.mem, Nor.read_append] at hprogram
      obtain ⟨hrecord, hfoot⟩ := List.append_inj hprogram (Nor.length_read _ _ _)
      rw [hstart, ← Nat.add_assoc]
      exact ⟨hrecord, serial, false, hfoot⟩
    · rw [if_neg hne, List.append_nil] at hw
      rw [hw.mem]
      refine ⟨Nor.read_program_blank (Nor.read_eq_blanks hblank) r.bytes rfl, serial', full, ?_⟩
      rw [Nor.read_program_of_disjoint, hfoot]
      have hlen := r.length_bytes
      omega
  have hlength : r.recordStart + mdFileRecordSize ≤ r.recordStart +
      (r.bytes ++ if rs = [] then footerBytes serial false else []).length := by
    rw [List.length_append, r.length_bytes]
    omega
  refine {
    place := h.place.touch ht
    stacked := h.stacked.append hplace hfooter (hend.trans_le hfree)
    written := fun r1 hr1 => ?_
    bytes := fun r1 hr1 => ?_
    claimed := by
      rw [claimedEnd_append]
      exact Nat.max_le.mpr ⟨h.claimed, hend.le⟩
    free_le := by
      rw [lowest_append]
      exact hfree
    gap := fun a hle hlt => ?_
    apart := ?_
    footer := .inr ⟨by simp, hread.2⟩ }
  · rw [List.mem_append, List.mem_singleton] at hr1
    rcases hr1 with hr1 | rfl
    · exact h.written r1 hr1
    · exact hwritten
  · rw [List.mem_append, List.mem_singleton] at hr1
    rcases hr1 with hr1 | rfl
    · have hne : rs ≠ [] := List.ne_nil_of_mem hr1
      have habove := h.stacked.lowest_le_start hr1
      have hbelow := h.stacked.start_lt hr1
      rw [if_neg hne, List.append_nil, r.length_bytes] at ht
      rw [ht.read (by omega) (by omega)]
      exact h.bytes r1 hr1
    · exact hread.1
  · rw [lowest_append] at hlt
    have hstart : r.recordStart < lowest (S - sectorFooterSize) rs := by
      rw [mdFileRecordSize] at hplace
      omega
    rw [ht.bytes a (by omega) (.inl hlt)]
    exact h.gap a hle (by omega)
  · rw [List.pairwise_append]
    refine ⟨h.apart, List.pairwise_singleton _ _, fun r1 hr1 r2 hr2 => ?_⟩
    rw [List.mem_singleton.mp hr2, hoff]
    exact dataEnd_le_claimedEnd hr1

end Changes

/-! ## The search for a window -/

section Search

variable {S c n s free minFree slot : Nat} {normal : Bool} {rs : List MdRecord} {w w' : World} {win : FreeWindow}

instance : CacheInv (Recorded S c n s rs free) where
  ofRead {w} h := by
    rw [Device.advance_of_plan h.place.plan]
    exact h
  ofCache h := { h with place := { h.place with } }

instance : NarrowInv (Recorded S c n s rs free) where
  narrow h := { h with place := { h.place with } }

/-- A program inside the sector. -/
theorem SectorAt.program (hp : SectorAt S c n s w) {off : Nat} {bs : List Byte} (hle : off + bs.length ≤ S) :
    (programAligned (s * S + off) bs).run w =
      (.ok (), w.withMem (Nor.program w.dev.mem (s * S + off) bs) []) := by
  have hin := hp.inside
  rw [Nat.succ_mul] at hin
  exact programAligned_run hp.plan hp.granule hp.aligned (by omega)

theorem keeps_full (hne : rs ≠ []) : Keeps (Recorded S c n s rs free) (markSectorFull s) := by
  constructor
  intro w h
  have hge := h.place.size_ge
  have hoff : sectorFooterOffset w.fs s + 5 = s * S + (S - sectorFooterSize + 5) := by
    rw [sectorFooterOffset, h.place.sectorSize, sectorFooterSize]
    omega
  rw [markSectorFull, bind_of_ok (run_getFs w), hoff, h.place.program (by rw [sectorFooterSize]; simp; omega)]
  exact h.full hne ⟨[], rfl, fun _ => rfl⟩

/-- The search changes a sector with records by a full mark at most. -/
theorem keeps_find (hne : rs ≠ []) :
    Keeps (Recorded S c n s rs free) (findSectorFreeWindow s minFree slot normal) := by
  have hfull : Keeps (Recorded S c n s rs free) (markSectorFull s) := keeps_full hne
  have hloop : ∀ fuel reader walk scan, Keeps (Recorded S c n s rs free)
      (freeWindowLoop s slot normal fuel reader walk scan) := by
    intro fuel
    induction fuel with
    | zero => exact fun reader walk scan => by unfold freeWindowLoop; infer_instance
    | succ fuel ih =>
      intro reader walk scan
      unfold freeWindowLoop
      split
      · infer_instance
      · refine Keeps.bind (k := fun a => ?_)
        obtain ⟨⟨walk, r, result⟩, reader⟩ := a
        cases result <;> infer_instance
  unfold findSectorFreeWindow
  refine Keeps.bind (k := fun fs => ?_)
  split
  · infer_instance
  refine Keeps.bind (k := fun view => ?_)
  dsimp only
  split
  · infer_instance
  · split
    · infer_instance
    · split <;> infer_instance

/-- The search in a blank sector changes nothing. -/
theorem Recorded.find_blank (h : Recorded S c n s [] free w) :
    Recorded S c n s [] free ((findSectorFreeWindow s minFree slot normal).run w).2 ∧
      ∀ win, ((findSectorFreeWindow s minFree slot normal).run w).1 = .ok win →
        win = ⟨0, u16 (S - sectorFooterSize - mdFileRecordSize), true, 0⟩ ∧
          minFree ≤ S - sectorFooterSize - mdFileRecordSize := by
  have hge := h.place.size_ge
  have herased : (decodeSectorFooter
      (Nor.read w.dev.mem (s * S + (S - sectorFooterSize)) sectorFooterSize)).erased = true := by
    refine flashBytesErased_of_blank fun i hlo hhi => ?_
    rcases h.footer with ⟨-, hblank⟩ | ⟨hne, -⟩
    · rw [← Nat.add_sub_cancel' (show s * S ≤ i by omega)]
      exact hblank _ (by omega) (by rw [sectorFooterSize] at *; omega)
    · exact absurd rfl hne
  obtain ⟨reader, hseen, -⟩ := h.place.readFooter SectorReader.enter_new
  rw [findSectorFreeWindow, bind_of_ok (run_getFs w), h.place.valid, if_neg (by decide),
    bind_of_ok hseen]
  dsimp only
  rw [herased, if_pos rfl, h.place.sectorSize]
  constructor
  · have hkeeps : Keeps (Recorded S c n s [] free) (do
        flashSpanIsErased (s * S) S
        if S - sectorFooterSize < mdFileRecordSize ∨ S - sectorFooterSize - mdFileRecordSize < minFree then
          Prog.throw .noSpace
        else
          note (.narrow [S - sectorFooterSize - mdFileRecordSize])
          pure { dataOff := 0, recordOff := u16 (S - sectorFooterSize - mdFileRecordSize)
                 needsFooter := true, mdRecords := 0 } : M FreeWindow) := inferInstance
    exact hkeeps.keeps w h
  · intro win hok
    obtain ⟨_, w1, -, hrun⟩ := bind_ok (Prod.ext hok rfl)
    split at hrun
    · cases hrun
    next hroom =>
    obtain ⟨_, w2, -, hwin⟩ := bind_ok hrun
    cases hwin
    exact ⟨rfl, by omega⟩

/-- The window is the one between the data and the records. -/
theorem Recorded.find_ok (h : Recorded S c n s rs (claimedEnd 0 rs) w) (hS : S ≤ 65536)
    (hroom : mdFileRecordSize * (rs.length + 1) + 2 * sectorFooterSize ≤ S)
    (hrun : (findSectorFreeWindow s minFree slot normal).run w = (.ok win, w')) :
    win.dataOff = claimedEnd 0 rs ∧ win.recordOff + mdFileRecordSize = lowest (S - sectorFooterSize) rs ∧
      win.dataOff + minFree ≤ win.recordOff ∧ win.needsFooter = decide (rs = []) := by
  have hge := h.place.size_ge
  have hlow := h.stacked.lowest_eq
  rw [mdFileRecordSize, sectorFooterSize] at hroom hlow
  have hcut : ∀ k, k + mdFileRecordSize ≤ S → u16 k = k := fun k hk => by
    rw [mdFileRecordSize] at hk
    exact u16_of_lt (by omega)
  by_cases hne : rs = []
  · subst hne
    obtain ⟨rfl, hmin⟩ := (h.find_blank ).2 win
      (congrArg Prod.fst hrun)
    have hoff := hcut (S - sectorFooterSize - mdFileRecordSize)
      (by rw [sectorFooterSize, mdFileRecordSize]; omega)
    refine ⟨rfl, ?_, ?_, rfl⟩
    · change u16 _ + mdFileRecordSize = S - sectorFooterSize
      rw [hoff, sectorFooterSize, mdFileRecordSize]
      omega
    · change 0 + minFree ≤ u16 _
      rw [hoff, Nat.zero_add]
      exact hmin
  · rcases findSectorFreeWindow_ok h.place.plan h.place.scratch hrun with
      ⟨-, -, hblank⟩ | ⟨rs', count, hvisited, -, rfl, hmin, -⟩
    · obtain ⟨serial, full, hread⟩ := (h.footer.resolve_left fun hnil => hne hnil.1).2
      have herased : flashBytesErased (footerBytes serial full) = true := by
        rw [← hread]
        refine flashBytesErased_of_blank fun i hlo hhi => ?_
        rw [h.place.sectorSize] at hblank
        rw [← Nat.add_sub_cancel' (show s * S ≤ i by omega)]
        exact hblank _ (by rw [sectorFooterSize] at *; omega)
      exact absurd herased (Bool.eq_false_iff.mp (decodeSectorFooter_bytes serial full).1)
    · rw [visited_recorded h] at hvisited
      subst hvisited
      rw [h.place.sectorSize] at hmin ⊢
      rw [mdFileRecordSize, sectorFooterSize] at hmin
      have hrec := hcut (lowest (S - sectorFooterSize) rs - mdFileRecordSize)
        (by rw [mdFileRecordSize, sectorFooterSize]; omega)
      have hend := hcut (claimedEnd 0 rs) (by rw [mdFileRecordSize]; omega)
      rw [hrec, hend]
      simp only [mdFileRecordSize, sectorFooterSize]
      refine ⟨trivial, by omega, by omega, ?_⟩
      simp [hne]

end Search

/-! ## Programming a record -/

section Program

variable [Opts] {S c n s free : Nat} {rs : List MdRecord} {w w' : World}

omit [Opts] in
/-- A change of the file system that the sector does not see. -/
theorem Recorded.withFs {f : Fs → Fs} (h : Recorded S c n s rs free w)
  (hsize : (f w.fs).sectorSize = w.fs.sectorSize)
    (hcount : (f w.fs).sectorCount = w.fs.sectorCount) (hidx : (f w.fs).indexSectors = w.fs.indexSectors)
    (hscratch : (f w.fs).scratchSize = w.fs.scratchSize) : Recorded S c n s rs free { w with fs := f w.fs } :=
  { h with place := { h.place with
      sectorSize := hsize.trans h.place.sectorSize
      sectorCount := hcount.trans h.place.sectorCount
      indexSectors := hidx.trans h.place.indexSectors
      scratch := hscratch ▸ h.place.scratch } }

theorem keeps_markUsed (hne : rs ≠ []) : Keeps (Recorded S c n s rs free) (markSectorUsed s) := by
  have hfull : Keeps (Recorded S c n s rs free) (markSectorFull s) := keeps_full hne
  have hmap : Keeps (Recorded S c n s rs free) (allocMapMarkUsed s) := by
    constructor
    intro v hv
    rw [allocMapMarkUsed, run_modifyFs]
    refine hv.withFs ?_ ?_ ?_ ?_ <;> (unfold allocMapMark; split <;> first | rfl | (split <;> rfl))
  unfold markSectorUsed
  infer_instance

/-- `fffs_program_extent_metadata` in a window of the sector, whose data have been programmed. -/
theorem Recorded.program {slot : Nat} {type : Byte} {dataOff recordOff dataLen spanLen sizeOrOffset next : Nat}
    {footer live : Bool} (h : Recorded S c n s rs (dataOff + dataLen) w) (hoff : dataOff = claimedEnd 0 rs)
    (hplace : recordOff + mdFileRecordSize = lowest (S - sectorFooterSize) rs)
      (hfooter : sectorFooterSize ≤ recordOff)
    (hdata : dataOff + dataLen ≤ recordOff) (hfirst : footer = decide (rs = []))
    (hencodable : (extentRecord slot type dataOff recordOff dataLen spanLen sizeOrOffset next live).Encodable)
    (hlinked : (extentRecord slot type dataOff recordOff dataLen spanLen sizeOrOffset next live).Linked c n s)
    (hrun : (programExtentMetadata s slot type dataOff recordOff footer dataLen spanLen
      sizeOrOffset next live).run w =
      (.ok (), w')) :
    Recorded S c n s (rs ++ [extentRecord slot type dataOff recordOff dataLen spanLen sizeOrOffset next live])
      (dataOff + dataLen) w' := by
  have hge := h.place.size_ge
  have hlow := h.stacked.lowest_le
  rw [programExtentMetadata] at hrun
  split at hrun
  · cases hrun
  next htype =>
  rw [not_and_or, not_not, not_not] at htype
  rw [bind_of_ok (run_getFs w)] at hrun
  dsimp only at hrun
  obtain ⟨bs, w1, hserial, hrun⟩ := bind_ok hrun
  rw [encodeExtentMetadata_eq slot type dataOff recordOff, h.place.sectorSize] at hrun
  have hwritten : (extentRecord slot type dataOff recordOff dataLen spanLen sizeOrOffset next
    live).Written c n s := {
    hencodable with
    type := htype
    state := by cases live <;> simp [extentRecord]
    linked := hlinked }
  have hbytes : ∃ serial, bs = (if rs = [] then footerBytes serial false else []) ∧
      Recorded S c n s rs (dataOff + dataLen) w1 := by
    subst hfirst
    by_cases hnil : rs = []
    · rw [if_pos (decide_eq_true hnil)] at hserial
      obtain ⟨serial, w2, hclaim, hbs⟩ := bind_ok hserial
      cases hbs
      refine ⟨serial, by rw [if_pos hnil, encodeSectorFooter_eq], ?_⟩
      rw [claimSectorSerial, bind_of_ok (run_getFs w), bind_of_ok (run_modifyFs _ w)] at hclaim
      cases hclaim
      exact { h with place := { h.place with } }
    · rw [if_neg (by simp [hnil])] at hserial
      cases hserial
      exact ⟨0, by rw [if_neg hnil], h⟩
  obtain ⟨serial, rfl, h1⟩ := hbytes
  obtain ⟨_, w2, hprogram, hrun⟩ := bind_ok hrun
  have h2 := h1.write hplace hfooter hoff rfl hdata hwritten (programAligned_ok h1.place.granule hprogram)
  have hmark : Keeps (Recorded S c n s
      (rs ++ [extentRecord slot type dataOff recordOff dataLen spanLen sizeOrOffset next live])
        (dataOff + dataLen))
      (markSectorUsed s) := keeps_markUsed (by simp)
  have hkeeps : Keeps (Recorded S c n s
      (rs ++ [extentRecord slot type dataOff recordOff dataLen spanLen sizeOrOffset next live])
        (dataOff + dataLen))
      (Prog.when (type = mdTypeFileContV1 ∨ (decide (dataOff + dataLen ≥ recordOff) ||
        decide (recordOff - (dataOff + dataLen) < allocMinUsableFree)) = true) (markSectorUsed s))
          := inferInstance
  have hkept := hkeeps.keeps w2 h2
  rw [hrun] at hkept
  exact hkept

end Program

/-! ## Looking a record up -/

/-- The list with the first element that meets `p` changed. -/
def updateFirst {α : Type} (p : α → Bool) (f : α → α) : List α → List α
  | [] => []
  | a :: as => if p a then f a :: as else a :: updateFirst p f as

theorem updateFirst_of_find {α : Type} {p : α → Bool} {f : α → α} {as : List α} {a : α}
  (h : as.find? p = some a) :
    ∃ front back, as = front ++ a :: back ∧ updateFirst p f as = front ++ f a :: back := by
  induction as with
  | nil => cases h
  | cons b as ih =>
    rw [List.find?_cons] at h
    cases hb : p b with
    | true =>
      rw [hb] at h
      cases h
      exact ⟨[], as, rfl, by rw [updateFirst, if_pos hb]; rfl⟩
    | false =>
      rw [hb] at h
      obtain ⟨front, back, hsplit, hupdate⟩ := ih h
      refine ⟨b :: front, back, by rw [hsplit]; rfl, ?_⟩
      rw [updateFirst, hb, if_neg Bool.false_ne_true, hupdate]
      rfl

theorem updateFirst_of_find_none {α : Type} {p : α → Bool} {f : α → α} {as : List α} (h : as.find? p = none) :
    updateFirst p f as = as := by
  induction as with
  | nil => rfl
  | cons b as ih =>
    rw [List.find?_cons] at h
    cases hb : p b with
    | true =>
      rw [hb] at h
      cases h
    | false =>
      rw [hb] at h
      rw [updateFirst, hb, if_neg Bool.false_ne_true, ih h]

section Lookup

variable {S c n s free slot : Nat} {all rs : List MdRecord} {r : MdRecord} {w w' : World} {walk : MdWalk}

/-- A lookup finds the first record that matches. -/
theorem readMdForSlotLoop_before (h : Recorded S c n s all (claimedEnd 0 all) w) {m : MdSlotMatch} {fuel : Nat}
    {reader : SectorReader} (hw : walk.Before S s all rs) (hreader : reader.Shows walk.sector walk.cursor w)
    (hrun : (readMdForSlotLoop slot m fuel reader walk).run w = (.ok r, w')) :
    w' = w ∧ rs.find? (fun r => mdRecordMatchesSlot r slot m) = some r := by
  induction fuel generalizing reader walk rs with
  | zero => cases hrun
  | succ fuel ih =>
    rw [readMdForSlotLoop] at hrun
    split at hrun
    · cases hrun
    next hactive =>
    rw [Bool.not_eq_false] at hactive
    cases rs with
    | nil =>
      obtain ⟨result, reader', hresult, hnext⟩ := mdWalkNext_stops h hw hactive hreader
      rw [bind_of_ok hnext] at hrun
      dsimp only at hrun
      rw [if_pos (by rcases hresult with rfl | rfl <;> decide)] at hrun
      cases hrun
    | cons r' rs =>
      obtain ⟨reader', hnext, hrest, hreader'⟩ := mdWalkNext_passes h hw hreader
      rw [bind_of_ok hnext] at hrun
      dsimp only at hrun
      rw [if_neg (not_not.mpr rfl)] at hrun
      cases hmatch : mdRecordMatchesSlot r' slot m with
      | true =>
        rw [hmatch, if_pos rfl] at hrun
        cases hrun
        exact ⟨rfl, by rw [List.find?_cons, hmatch]⟩
      | false =>
        rw [hmatch, if_neg Bool.false_ne_true] at hrun
        obtain ⟨hw', hfind⟩ := ih hrest hreader' hrun
        exact ⟨hw', by rw [List.find?_cons, hmatch, hfind]⟩

theorem readMdForSlotBy_recorded (h : Recorded S c n s all (claimedEnd 0 all) w) {m : MdSlotMatch}
    (hrun : (readMdForSlotBy s slot m).run w = (.ok r, w')) :
    w' = w ∧ all.find? (fun r => mdRecordMatchesSlot r slot m) = some r := by
  obtain ⟨reader, hfooter, hreader⟩ := h.place.readFooter SectorReader.enter_new
  obtain ⟨hinit, hreader'⟩ := h.place.walkInit hreader
  rw [readMdForSlotBy, bind_of_ok (run_getFs w), h.place.valid, if_neg (by decide),
    bind_of_ok hfooter] at hrun
  dsimp only at hrun
  split at hrun
  · cases hrun
  · rw [bind_of_ok hinit] at hrun
    exact readMdForSlotLoop_before h h.before hreader' hrun

/-! ## Tombstones -/

/-- The record that a tombstone for a slot is meant for. -/
def liveFor (slot : Nat) (r : MdRecord) : Bool := r.live && r.slot == slot

theorem liveFor_iff : liveFor slot r = true ↔ ¬ (r.live = false ∨ r.slot ≠ slot) := by
  rw [liveFor, Bool.and_eq_true, beq_iff_eq, not_or, Bool.not_eq_false, not_not]

/-- A tombstone of one record. -/
theorem Recorded.kill {front back : List MdRecord} (h : Recorded S c n s (front ++ r :: back) free w)
    (hlive : r.live = true)
    (hw : w.Becomes (Nor.program w.dev.mem (s * S + r.recordStart) [lifecycleTombstoned]) w') :
    Recorded S c n s (front ++ r.kill :: back) free w' := by
  have hmem : r ∈ front ++ r :: back := List.mem_append_right front List.mem_cons_self
  have hwritten := h.written r hmem
  have hstate := hwritten.live_iff.mp hlive
  have ht := Touches.program hw h.place.plan
  have hread := read_state (b := lifecycleTombstoned) (h.bytes r hmem)
  rw [← hw.mem, hstate, show lifecycleValid &&& lifecycleTombstoned = lifecycleTombstoned by decide] at hread
  refine h.replace { ht with bytes := fun a ha hout => ht.bytes a ha ?_ } hread rfl rfl rfl {
    hwritten with
    live := (by decide : false = stateIsLive lifecycleTombstoned)
    state := .inr (.inr rfl)
    linked := .inr (hwritten.linked.resolve_left ?_) }
  · rw [List.length_singleton]
    rw [mdFileRecordSize] at hout
    omega
  · rw [hstate]
    decide

/-- The loop of `fffs_tombstone_metadata_for_slot` programs the first live record of the slot. -/
theorem tombstoneMetadataLoop_before (h : Recorded S c n s all (claimedEnd 0 all) w)
    {d accounted : Bool} {fuel : Nat} {reader : SectorReader} (hw : walk.Before S s all rs)
    (hreader : reader.Shows walk.sector walk.cursor w) (hfuel : rs.length < fuel)
    (hrun : (tombstoneMetadataLoop s slot d fuel reader walk).run w = (.ok accounted, w')) :
    (rs.find? (liveFor slot) = none ∧ w' = w) ∨ ∃ r v, rs.find? (liveFor slot) = some r ∧
      w.Becomes (Nor.program w.dev.mem (s * S + r.recordStart) [lifecycleTombstoned]) v ∧
      ∀ rs' free', Recorded S c n s rs' free' v → Recorded S c n s rs' free' w' := by
  induction fuel generalizing reader walk rs with
  | zero => exact absurd hfuel (Nat.not_lt_zero _)
  | succ fuel ih =>
    rw [tombstoneMetadataLoop] at hrun
    split at hrun
    · next hstop =>
      cases hrun
      have hnil : rs = [] := by
        by_contra hne
        rw [hw.active hne] at hstop
        cases hstop
      subst hnil
      exact .inl ⟨rfl, rfl⟩
    next hactive =>
    rw [Bool.not_eq_false] at hactive
    cases rs with
    | nil =>
      obtain ⟨result, reader', hresult, hnext⟩ := mdWalkNext_stops h hw hactive hreader
      rw [bind_of_ok hnext] at hrun
      dsimp only at hrun
      rw [if_neg (by rcases hresult with rfl | rfl <;> decide),
        if_pos (by rcases hresult with rfl | rfl <;> decide)] at hrun
      cases hrun
      exact .inl ⟨rfl, rfl⟩
    | cons r rs =>
      obtain ⟨reader', hnext, hrest, hreader'⟩ := mdWalkNext_passes h hw hreader
      rw [bind_of_ok hnext] at hrun
      dsimp only at hrun
      rw [if_neg (by decide), if_neg (not_not.mpr rfl)] at hrun
      split at hrun
      · next hother =>
        have hskip : liveFor slot r = false := Bool.eq_false_iff.mpr fun hfor => liveFor_iff.mp hfor hother
        rw [List.find?_cons, hskip]
        exact ih hrest hreader' (by rw [List.length_cons] at hfuel; omega) hrun
      · next hmatch =>
        have hfound : liveFor slot r = true := liveFor_iff.mpr hmatch
        rw [bind_of_ok (run_getFs w), h.place.sectorSize] at hrun
        obtain ⟨_, v, hprogram, hrun⟩ := bind_ok hrun
        refine .inr ⟨r, v, by rw [List.find?_cons, hfound], programAligned_ok h.place.granule hprogram,
          fun rs' free' hv => ?_⟩
        split at hrun
        · rw [bind_of_ok (run_modifyFs _ v)] at hrun
          cases hrun
          refine hv.withFs ?_ ?_ ?_ ?_ <;>
            (unfold fsinfoNoteCommittedDelete; split <;> [rfl; (split <;> rfl)])
        · cases hrun
          exact hv

/-- `fffs_tombstone_metadata_for_slot`. -/
theorem Recorded.tombstone (h : Recorded S c n s all (claimedEnd 0 all) w) {d accounted : Bool}
    (hrun : (tombstoneMetadataForSlot s slot d).run w = (.ok accounted, w')) :
    Recorded S c n s (updateFirst (liveFor slot) MdRecord.kill all) (claimedEnd 0 all) w' := by
  obtain ⟨reader, hseen, hreader⟩ := h.place.readFooter SectorReader.enter_new
  obtain ⟨hinit, hreader'⟩ := h.place.walkInit hreader
  rw [tombstoneMetadataForSlot, bind_of_ok (run_getFs w), h.place.valid, if_neg (by decide),
    bind_of_ok hseen] at hrun
  dsimp only at hrun
  rcases h.footer with ⟨rfl, hblank⟩ | ⟨hne, serial, full, hfooter⟩
  · have herased : (decodeSectorFooter
        (Nor.read w.dev.mem (s * S + (S - sectorFooterSize)) sectorFooterSize)).erased = true := by
      have hge := h.place.size_ge
      refine flashBytesErased_of_blank fun i hlo hhi => ?_
      rw [← Nat.add_sub_cancel' (show s * S ≤ i by omega)]
      exact hblank _ (by omega) (by rw [sectorFooterSize] at *; omega)
    rw [if_pos herased] at hrun
    cases hrun
    exact h
  obtain ⟨herased, htype, hmagic, hlive⟩ := decodeSectorFooter_bytes serial full
  have htomb : (decodeSectorFooter (footerBytes serial full)).tombstoneBits ≠ .cleared := by
    rw [SectorFooter.isLive, lifecycleIsLive, Bool.and_eq_true, beq_iff_eq, beq_iff_eq] at hlive
    rw [hlive.2]
    decide
  rw [hfooter, herased, if_neg (by decide), if_neg (by simp [htype, hmagic]), if_neg fun hdead => htomb hdead.2,
    hlive, if_neg (by decide), bind_of_ok hinit] at hrun
  rcases tombstoneMetadataLoop_before h h.before hreader' (h.place.sectorSize.symm ▸ h.length_lt) hrun with ⟨hnone, rfl⟩ | ⟨r, v, hfind, hv, hfs⟩
  · rw [updateFirst_of_find_none hnone]
    exact h
  · obtain ⟨front, back, hsplit, hupdate⟩ := updateFirst_of_find (f := MdRecord.kill) hfind
    have hlive' : r.live = true := by
      have hmatch := List.find?_some hfind
      rw [liveFor, Bool.and_eq_true] at hmatch
      exact hmatch.1
    rw [hupdate]
    rw [hsplit] at h ⊢
    exact hfs _ _ (h.kill hlive' hv)

end Lookup

/-! ## The second step -/

/-- The record that `fffs_finish_extent_metadata` is meant for. -/
def begunFor (slot : Nat) (r : MdRecord) : Bool := mdRecordMatchesSlot r slot .uncommitted

/-- The second step fits the record: it programs blank fields, or the same again, and a record
that becomes live has a link. -/
structure MdRecord.Finishes (c n s next spanLen : Nat) (totalSize : Option Nat) (makeLive : Bool) (r : MdRecord) :
    Prop where
  link : (r.next = uint16Max ∧ r.spanLen = uint16Max) ∨ r.next = next ∧ r.spanLen = spanLen
  size : ∀ size, totalSize = some size → r.sizeOrOffset = 4294967295 ∨ r.sizeOrOffset = size
  next_lt : next < 65536
  span_lt : spanLen < 65536
  size_lt : ∀ size, totalSize = some size → size < 4294967296
  linked : makeLive = true → spanLen ≠ 0 ∧ s + spanLen ≤ c ∧ (next = 0 ∨ n ≤ next ∧ next < c)

section Finish

variable {S c n s free next spanLen : Nat} {totalSize : Option Nat} {makeLive : Bool} {front back : List MdRecord}
  {r : MdRecord} {w w' : World}

theorem MdRecord.Finishes.overwrites_link (hf : r.Finishes c n s next spanLen totalSize makeLive) :
    overwrites (storeLe16 r.next ++ storeLe16 r.spanLen) (storeLe16 next ++ storeLe16 spanLen) := by
  rcases hf.link with ⟨hnext, hspan⟩ | ⟨hnext, hspan⟩
  · rw [hnext, hspan]
    exact .inl (by decide : storeLe16 uint16Max ++ storeLe16 uint16Max = List.replicate 4 blank)
  · rw [hnext, hspan]
    exact .inr rfl

theorem overwrites_size {size size' : Nat} (h : size = 4294967295 ∨ size = size') :
    overwrites (storeLe32 size) (storeLe32 size') := by
  rcases h with rfl | rfl
  · exact .inl (by decide : storeLe32 4294967295 = List.replicate 4 blank)
  · exact .inr rfl

/-- A program inside a record. -/
theorem Recorded.reprogram (h : Recorded S c n s (front ++ r :: back) free w) {k : Nat}
  {bs : List Byte} {r' : MdRecord}
    (hw : w.Becomes (Nor.program w.dev.mem (s * S + r.recordStart + k) bs) w')
    (hin : k + bs.length ≤ mdFileRecordSize)
    (hread : Nor.read (Nor.program w.dev.mem (s * S + r.recordStart + k) bs) (s * S + r.recordStart)
      mdFileRecordSize = r'.bytes)
    (hstart : r'.recordStart = r.recordStart) (hoff : r'.dataOff = r.dataOff) (hlen : r'.dataLen = r.dataLen)
    (hwritten : r'.Written c n s) : Recorded S c n s (front ++ r' :: back) free w' := by
  rw [← hw.mem] at hread
  rw [Nat.add_assoc] at hw
  have ht := Touches.program hw h.place.plan
  exact h.replace { ht with bytes := fun a ha hout => ht.bytes a ha (by omega) } hread hstart hoff hlen hwritten

/-- The programs of the second step. -/
theorem Recorded.finish (h : Recorded S c n s (front ++ r :: back) free w) (hstate : r.state = blank)
    (hf : r.Finishes c n s next spanLen totalSize makeLive)
    (hrun : (do
      programAligned (s * S + r.recordStart + 3) (storeLe16 next ++ storeLe16 spanLen)
      totalSize.elim (pure ()) fun size => programAligned (s * S + r.recordStart + 11) (storeLe32 size)
      Prog.when makeLive (programAligned (s * S + r.recordStart) [lifecycleValid]) : M Unit).run w
        = (.ok (), w')) :
    Recorded S c n s (front ++ r.finish next spanLen totalSize makeLive :: back) free w' ∧ w'.fs = w.fs := by
  have hwritten := h.written r (List.mem_append_right front List.mem_cons_self)
  obtain ⟨_, w1, hlink, hrun⟩ := bind_ok hrun
  have hbecomes := programAligned_ok h.place.granule hlink
  have hwritten1 : { r with next := next, spanLen := spanLen }.Written c n s :=
    { hwritten with next := hf.next_lt, spanLen := hf.span_lt, linked := .inl hstate }
  have h1 : Recorded S c n s (front ++ { r with next := next, spanLen := spanLen } :: back) free w1 :=
    h.reprogram hbecomes (show 3 + 4 ≤ 16 by decide)
      (read_link (h.bytes r (List.mem_append_right front List.mem_cons_self)) hf.overwrites_link)
        rfl rfl rfl hwritten1
  obtain ⟨_, w2, hsize, hrun⟩ := bind_ok hrun
  have h2 : Recorded S c n s (front ++ { r with
      next := next, spanLen := spanLen, sizeOrOffset := totalSize.getD r.sizeOrOffset } :: back) free w2 ∧
      w2.fs = w.fs := by
    cases totalSize with
    | none =>
      cases hsize
      exact ⟨h1, hbecomes.fs⟩
    | some size =>
      have hbecomes2 := programAligned_ok h1.place.granule hsize
      have hread := read_size (h1.bytes _ (List.mem_append_right front List.mem_cons_self))
        (overwrites_size (hf.size size rfl))
      exact ⟨h1.reprogram hbecomes2 (show 11 + 4 ≤ 16 by decide) hread rfl rfl rfl
        { hwritten1 with sizeOrOffset := hf.size_lt size rfl }, hbecomes2.fs.trans hbecomes.fs⟩
  obtain ⟨h2, hfs⟩ := h2
  have hwritten2 := h2.written _ (List.mem_append_right front List.mem_cons_self)
  cases makeLive with
  | false =>
    cases hrun
    exact ⟨h2, hfs⟩
  | true =>
    rw [when_pos rfl] at hrun
    have hbecomes3 := programAligned_ok h2.place.granule hrun
    have hread := read_state (b := lifecycleValid)
      (h2.bytes _ (List.mem_append_right front List.mem_cons_self))
    rw [hstate, show blank &&& lifecycleValid = lifecycleValid by decide] at hread
    exact ⟨h2.reprogram (k := 0) hbecomes3 (by decide) hread rfl rfl rfl {
      hwritten2 with
      live := (by decide : true = stateIsLive lifecycleValid)
      state := .inl rfl
      linked := .inr (hf.linked rfl) }, hbecomes3.fs.trans hfs⟩

end Finish

/-! ## The index append -/

/-- The active and the oldest sector of the index are index sectors. -/
def indexPlaced (fs : Fs) : Prop := fs.activeIndexSector < fs.indexSectors ∧ fs.oldestIndexSector
  < fs.indexSectors

/-- The records of the sector, and the index where it should be. -/
def Indexed (S c n s : Nat) (rs : List MdRecord) (free : Nat) (w : World) : Prop :=
  Recorded S c n s rs free w ∧ indexPlaced w.fs

/-- There is room for a record at the end of the log. -/
def indexHasRoom (fs : Fs) : Prop := ¬ indexSectorIsFull fs = true

section Index

variable [Opts] {S c n s free slot head : Nat} {rs : List MdRecord} {w w' : World}

omit [Opts] in
theorem Recorded.elsewhere (h : Recorded S c n s rs free w) (ht : Touches S s 0 0 w w') :
    Recorded S c n s rs free w' :=
  h.outside ht.elsewhere (Nat.le_refl _) h.free_le

omit [Opts] in
instance : CacheInv (Indexed S c n s rs free) where
  ofRead h := ⟨ReadInv.ofRead h.1, h.2⟩
  ofCache h := ⟨CacheInv.ofCache h.1, h.2⟩

omit [Opts] in
/-- A program of the index sectors. -/
theorem Indexed.program (h : Indexed S c n s rs free w) (off : Nat) (bs : List Byte)
  (hle : off + bs.length ≤ n * S) :
    ∃ w', (programAligned off bs).run w = (.ok (), w') ∧ Indexed S c n s rs free w' ∧ w'.fs = w.fs := by
  have hp := h.1.place
  have hbelow : n * S ≤ s * S := Nat.mul_le_mul_right S hp.data
  have hin := hp.inside
  rw [Nat.succ_mul] at hin
  refine ⟨_, programAligned_run hp.plan hp.granule hp.aligned (by omega), ⟨h.1.elsewhere ?_, h.2⟩, rfl⟩
  exact ⟨rfl, rfl, rfl, rfl, rfl, hp.plan.symm, rfl, fun a _ _ => Nor.get_program_of_notMem (by omega)⟩

omit [Opts] in
theorem index_sector_le {i : Nat} (hi : i < n) : i * S + S ≤ n * S := by
  have hnext := Nat.mul_le_mul_right S (show i + 1 ≤ n by omega)
  rwa [Nat.succ_mul] at hnext

omit [Opts] in
/-- An erase of an index sector. -/
theorem Indexed.erase (h : Indexed S c n s rs free w) {i : Nat} (hi : i < n) :
    ∃ w', (backendErase (i * S) S).run w = (.ok (), w') ∧ Indexed S c n s rs free w' ∧ w'.fs = w.fs := by
  have hp := h.1.place
  have hbelow : n * S ≤ s * S := Nat.mul_le_mul_right S hp.data
  have hend := index_sector_le (S := S) hi
  have hin := hp.inside
  rw [Nat.succ_mul] at hin
  have herase : w.dev.erase (i * S) S = (true, { w.dev with
      mem := Nor.erase w.dev.mem (i * S) S, plan := Device.nextPlan w.dev.plan }) := by
    rw [Device.erase]
    dsimp only
    rw [if_pos (show i * S + S ≤ w.dev.mem.size from (by omega : i * S + S ≤ w.dev.size)), hp.plan]
  have hrun : (backendErase (i * S) S).run w =
      (.ok (), w.withMem (Nor.erase w.dev.mem (i * S) S) (Device.nextPlan w.dev.plan)) := by
    simp only [backendErase, herase]
    rfl
  have hplan : Device.nextPlan w.dev.plan = w.dev.plan := by
    rw [hp.plan]
    rfl
  refine ⟨_, hrun, ⟨h.1.elsewhere
    ⟨rfl, rfl, rfl, rfl, rfl, hplan, Nor.size_erase _ _ _, fun a _ _ => ?_⟩, h.2⟩, rfl⟩
  change Nor.get (Nor.erase w.dev.mem (i * S) S) (s * S + a) = _
  rw [Nor.get_erase, if_neg (by omega)]

omit [Opts] in
/-- A rotation leaves an active sector with room. -/
theorem Indexed.rotateBegin (h : Indexed S c n s rs free w) :
    ∃ w', rotateIndexBegin.run w = (.ok (), w') ∧ Indexed S c n s rs free w' ∧ indexHasRoom w'.fs := by
  have hp := h.1.place
  have hactive := h.2.1
  have hge := hp.size_ge
  rw [hp.indexSectors] at hactive
  have hnew : (if w.fs.activeIndexSector + 1 ≥ w.fs.indexSectors then 0 else w.fs.activeIndexSector + 1) < n := by
    rw [hp.indexSectors]
    split <;> omega
  rw [rotateIndexBegin, bind_of_ok (run_getFs w)]
  dsimp only
  generalize (if w.fs.activeIndexSector + 1 ≥ w.fs.indexSectors then 0 else w.fs.activeIndexSector
    + 1) = i at hnew ⊢
  have hnote : Indexed S c n s rs free { w with trace := ⟨.erase i, w.fs, w.files⟩ :: w.trace } :=
    ⟨{ h.1 with place := { hp with } }, h.2⟩
  obtain ⟨w1, herase, h1, hfs⟩ := hnote.erase hnew
  rw [bind_of_ok (run_note _ w), hp.sectorSize, bind_of_ok herase]
  refine ⟨_, run_modifyFs _ w1, ⟨h1.1.withFs rfl rfl rfl rfl, ?_, ?_⟩, ?_⟩
  · change i < w1.fs.indexSectors
    rw [h1.1.place.indexSectors]
    exact hnew
  · exact h1.2.2
  · rw [indexHasRoom, indexSectorIsFull, decide_eq_true_eq]
    change ¬ (i * w1.fs.sectorSize + headerSize + 4 > (i + 1) * w1.fs.sectorSize)
    rw [h1.1.place.sectorSize, Nat.succ_mul, headerSize]
    omega

omit [Opts] in
/-- A record at the end of the log. -/
theorem Indexed.atEnd (h : Indexed S c n s rs free w) (hroom : indexHasRoom w.fs) :
    Indexed S c n s rs free ((appendIndexAtEnd slot head).run w).2 := by
  have hp := h.1.place
  have hactive := h.2.1
  rw [hp.indexSectors] at hactive
  have hend := index_sector_le (S := S) hactive
  rw [indexHasRoom, indexSectorIsFull, decide_eq_true_eq, hp.sectorSize, Nat.succ_mul] at hroom
  obtain ⟨w1, hslot, h1, hfs1⟩ := h.program w.fs.nextIndexOffset (storeLe16 slot)
    (by rw [length_storeLe16]; omega)
  obtain ⟨w2, hhead, h2, hfs2⟩ := h1.program (w.fs.nextIndexOffset + 2) (storeLe16 head)
    (by rw [length_storeLe16]; omega)
  have hrecord : (programIndexRecordAt w.fs.nextIndexOffset slot head).run w = (.ok (), w2) := by
    rw [programIndexRecordAt, bind_of_ok hslot]
    exact hhead
  rw [appendIndexAtEnd, bind_of_ok (run_getFs w), bind_of_ok hrecord, run_modifyFs]
  exact ⟨{ h2.1 with place := { h2.1.place with } }, h2.2⟩

omit [Opts] in
theorem keeps_writerAppend (pending : Bool) :
    Keeps (Indexed S c n s rs free) (indexRecordWriterAppend pending slot head) := by
  constructor
  intro w h
  have happend : ∀ {v : World} (p : Bool), Indexed S c n s rs free v → indexHasRoom v.fs →
      Indexed S c n s rs free ((do appendIndexAtEnd slot head; pure p : M Bool).run v).2 :=
    fun p hv hroom => Keeps.after (hv.atEnd hroom) fun _ => inferInstance
  by_cases hfull : indexSectorIsFull w.fs = true
  · by_cases hstop : pending ∨ w.fs.indexSequenceCount ≥ w.fs.indexSectors
    · have hroom : (indexRecordWriterRoom pending).run w = (.error .noSpace, w) := by
        rw [indexRecordWriterRoom, bind_of_ok (run_getFs w), if_pos hfull, if_pos hstop]
        rfl
      rw [indexRecordWriterAppend, bind_of_error hroom]
      exact h
    · obtain ⟨w1, hrotate, h1, hroom1⟩ := h.rotateBegin
      have hroom : (indexRecordWriterRoom pending).run w = (.ok true, w1) := by
        rw [indexRecordWriterRoom, bind_of_ok (run_getFs w), if_pos hfull, if_neg hstop, bind_of_ok hrotate]
        rfl
      rw [indexRecordWriterAppend, bind_of_ok hroom]
      exact happend true h1 hroom1
  · have hroom : (indexRecordWriterRoom pending).run w = (.ok pending, w) := by
      rw [indexRecordWriterRoom, bind_of_ok (run_getFs w), if_neg hfull]
      rfl
    rw [indexRecordWriterAppend, bind_of_ok hroom]
    exact happend pending h hfull

omit [Opts] in
instance : Keeps (Indexed S c n s rs free) rotateIndexCommit := by
  constructor
  intro w h
  have hactive := h.2.1
  have hge := h.1.place.size_ge
  rw [h.1.place.indexSectors] at hactive
  have hend := index_sector_le (S := S) hactive
  have hlen : (encodeIndexHeader w.fs.indexSectors w.fs.sectorShift w.fs.activeIndexSerial).length = 8 := rfl
  obtain ⟨w1, hheader, h1, -⟩ := h.program (w.fs.activeIndexSector * S)
    (encodeIndexHeader w.fs.indexSectors w.fs.sectorShift w.fs.activeIndexSerial) (by omega)
  obtain ⟨w2, hvalid, h2, -⟩ := h1.program (w.fs.activeIndexSector * S + 7) [indexFlagsValid]
    (by rw [List.length_singleton]; omega)
  rw [rotateIndexCommit, bind_of_ok (run_getFs w), h.1.place.sectorSize, programIndexHeader,
    bind_of_ok hheader, hvalid]
  exact h2

omit [Opts] in
theorem keeps_compactFinish {source : Nat} (hsource : source < n) :
    Keeps (Indexed S c n s rs free) (indexCompactOldestFinish source) := by
  constructor
  intro w h
  have hge := h.1.place.size_ge
  have hend := index_sector_le (S := S) hsource
  obtain ⟨w1, htomb, h1, -⟩ := h.program (source * S + 7) [indexFlagsValid &&& ~~~0x40#8]
    (by rw [List.length_singleton]; omega)
  have hrun : (tombstoneIndexSector source).run w = (.ok (), w1) := by
    rw [tombstoneIndexSector, bind_of_ok (run_getFs w), h.1.place.sectorSize]
    exact htomb
  rw [indexCompactOldestFinish, bind_of_ok hrun, run_modifyFs]
  exact ⟨{ h1.1 with place := { h1.1.place with } }, h1.2.1, Nat.mod_lt _ (Nat.zero_lt_of_lt h1.2.2)⟩

instance (reader : IndexRecordReader) (sourceEnd fuel off : Nat) (pending : Bool) :
    Keeps (Indexed S c n s rs free) (compactCopyLoop sourceEnd fuel reader off pending) := by
  induction fuel generalizing reader off pending with
  | zero => unfold compactCopyLoop; infer_instance
  | succ fuel ih =>
    have happend : ∀ p slot head, Keeps (Indexed S c n s rs free) (indexRecordWriterAppend p slot head) :=
      fun p _ _ => keeps_writerAppend p
    unfold compactCopyLoop
    infer_instance

/-- The compaction reads an index sector. -/
theorem compactCopy_source : Yields (Indexed S c n s rs free) indexCompactOldestCopy fun source =>
  source < n := by
  have hfs : Yields (Indexed S c n s rs free) getFs fun fs => fs.oldestIndexSector < n :=
    ⟨fun _ h => h, fun _ _ h ha => by
      cases ha
      exact h.1.place.indexSectors ▸ h.2.2⟩
  rw [indexCompactOldestCopy]
  refine hfs.bind fun fs hsource => ?_
  dsimp only
  refine Yields.ite (fun _ => .pure hsource) fun _ => ?_
  exact Yields.ofKeeps.bind fun pending _ => Yields.ofKeeps.bind fun _ _ => .pure hsource

instance : Keeps (Indexed S c n s rs free) rotateIndex := by
  have hbegin : Keeps (Indexed S c n s rs free) rotateIndexBegin := by
    constructor
    intro w h
    obtain ⟨w1, hrun, h1, -⟩ := h.rotateBegin
    rw [hrun]
    exact h1
  have hcompact : Keeps (Indexed S c n s rs free) (do
      let source ← indexCompactOldestCopy
      rotateIndexCommit
      indexCompactOldestFinish source) := by
    refine compactCopy_source.bindKeeps fun source hsource => ?_
    have hfinish : Keeps (Indexed S c n s rs free) (indexCompactOldestFinish source) :=
      keeps_compactFinish hsource
    infer_instance
  unfold rotateIndex
  infer_instance

/-- `fffs_append_index_record`. -/
instance : Keeps (Indexed S c n s rs free) (appendIndexRecord slot head) := by
  constructor
  intro w h
  have hset : ∀ {v : World}, Indexed S c n s rs free v → indexHasRoom v.fs → Indexed S c n s rs free ((do
      appendIndexAtEnd slot head
      indexSet slot head : M Unit).run v).2 :=
    fun hv hroom => Keeps.after (hv.atEnd hroom) fun _ => inferInstance
  rw [appendIndexRecord]
  by_cases hfull : indexSectorIsFull w.fs = true
  · have hrotate := (inferInstance : Keeps (Indexed S c n s rs free) rotateIndex).keeps w h
    rcases hrun : rotateIndex.run w with ⟨res, w1⟩
    rw [hrun] at hrotate
    cases res with
    | error e =>
      have hroom : appendIndexRoom.run w = (.error e, w1) := by
        rw [appendIndexRoom, bind_of_ok (run_getFs w), if_pos hfull, bind_of_error hrun]
      rw [bind_of_error hroom]
      exact hrotate
    | ok _ =>
      by_cases hstill : indexSectorIsFull w1.fs = true
      · have hroom : appendIndexRoom.run w = (.error .noSpace, w1) := by
          rw [appendIndexRoom, bind_of_ok (run_getFs w), if_pos hfull, bind_of_ok hrun, bind_of_ok (run_getFs w1),
            if_pos hstill]
          rfl
        rw [bind_of_error hroom]
        exact hrotate
      · have hroom : appendIndexRoom.run w = (.ok (), w1) := by
          rw [appendIndexRoom, bind_of_ok (run_getFs w), if_pos hfull, bind_of_ok hrun, bind_of_ok (run_getFs w1),
            if_neg hstill]
          rfl
        rw [bind_of_ok hroom]
        exact hset hrotate hstill
  · have hroom : appendIndexRoom.run w = (.ok (), w) := by
      rw [appendIndexRoom, bind_of_ok (run_getFs w), if_neg hfull]
      rfl
    rw [bind_of_ok hroom]
    exact hset h hfull

end Index

end Fastffs
