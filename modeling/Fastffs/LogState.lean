import Fastffs.Mount
import Mathlib.Data.List.GetD

/-!
# The log of a mounted file system

`LogOn w logs` says that the index sectors of the running sequence hold the records
`logs`, one list for each sector, and that each sector is blank after its records.
The replay of such a log finds these records (`LogOn.scanLog_eq`).
-/

namespace Fastffs

open Prog
open Nor (Mem Byte blank)

/-! ## The records of one sector -/

/-- The places from `off` on hold the records. -/
def Records (m : Mem) : Nat → List IndexRecord → Prop
  | _, [] => True
  | off, r :: rs => recordAt m off = r ∧ r.erased = false ∧ Records m (off + 4) rs

section Records

variable {m m' : Mem} {off : Nat} {r : IndexRecord} {rs rs' : List IndexRecord}

theorem Records.congr (h : Records m off rs)
    (hget : ∀ i, off ≤ i → i < off + 4 * rs.length → Nor.get m' i = Nor.get m i) :
    Records m' off rs := by
  induction rs generalizing off with
  | nil => trivial
  | cons r rs ih =>
    obtain ⟨h1, h2, h3⟩ := h
    rw [List.length_cons] at hget
    refine ⟨?_, h2, ih h3 fun i hi1 hi2 => hget i (by omega) (by omega)⟩
    rw [recordAt_congr fun i hi1 hi2 => hget i hi1 (by omega), h1]

theorem Records.append_iff :
    Records m off (rs ++ rs') ↔ Records m off rs ∧ Records m (off + 4 * rs.length) rs' := by
  induction rs generalizing off with
  | nil => simp [Records]
  | cons r rs ih =>
    have hoff : off + 4 + 4 * rs.length = off + 4 * (r :: rs).length := by
      rw [List.length_cons]
      omega
    rw [List.cons_append, Records, Records, ih, hoff]
    tauto

theorem Records.erased (h : Records m off rs) : ∀ r ∈ rs, r.erased = false := by
  induction rs generalizing off with
  | nil => simp
  | cons r rs ih =>
    intro r' hr'
    rcases List.mem_cons.mp hr' with rfl | hr'
    · exact h.2.1
    · exact ih h.2.2 r' hr'

end Records

/-- The record is one that an append writes, or one that recovery has overwritten. -/
def IndexRecord.clean (fs : Fs) (r : IndexRecord) : Bool := r.clobbered || !r.malformed fs

/-! ## Scanning a sector of records -/

section Scan

variable {w : World} {active : Bool} {endOff off : Nat} {rs : List IndexRecord}

/-- The last record of the active sector has a live root. -/
def tailLive (w : World) (rs : List IndexRecord) : Prop :=
  ∀ r, rs.getLast? = some r → r.head = 0 ∨ rootIsLive w r.slot r.head = true

/-- The scan of a sector that holds clean records. -/
theorem scanRecords_of_records {n : Nat} (h : Records w.dev.mem off rs)
    (hclean : ∀ r ∈ rs, r.clean w.fs = true) (hlen : rs.length ≤ n)
    (hend : endOff = off + 4 * n)
    (hfree : freeFrom w.dev.mem (off + 4 * rs.length) endOff = true)
    (hlive : active = true → tailLive w rs) :
    scanRecords w active endOff n off = ⟨rs, if rs.length = n then .full else .free⟩ := by
  induction rs generalizing off n with
  | nil =>
    cases n with
    | zero => rfl
    | succ n =>
      have herased : (recordAt w.dev.mem off).erased = true := by
        rw [recordAt_erased_iff, freeFrom_iff]
        intro i h1 h2
        exact freeFrom_iff.mp hfree i (by simpa using h1) (by omega)
      rw [scanRecords, if_pos herased]
      rfl
  | cons r rs ih =>
    obtain ⟨hr, herased, hrest⟩ := h
    rw [List.length_cons] at hlen hfree
    obtain ⟨n, rfl⟩ : ∃ k, n = k + 1 := ⟨n - 1, by omega⟩
    have htaken : taken w active endOff off = true := by
      have hc := hclean r List.mem_cons_self
      rw [IndexRecord.clean, Bool.or_eq_true] at hc
      rw [taken, hr]
      rcases hc with hc | hc
      · rw [hc, Bool.true_or]
      · rw [hc, Bool.true_and, Bool.or_eq_true]
        right
        cases rs with
        | nil =>
          by_cases ha : active = true
          · have hl := hlive ha r (by simp)
            rcases hl with hl | hl
            · rw [hl]
              rfl
            · rw [hl, Bool.or_true]
          · rw [Bool.eq_false_of_not_eq_true ha]
            simp
        | cons r' rs' =>
          -- the next place is not free
          have hnot : freeFrom w.dev.mem (off + 4) endOff = false := by
            apply Bool.eq_false_of_not_eq_true
            intro hf
            have he : (recordAt w.dev.mem (off + 4)).erased = true := by
              rw [recordAt_erased_iff, freeFrom_iff]
              intro i h1 h2
              rw [List.length_cons] at hlen
              exact freeFrom_iff.mp hf i h1 (by omega)
            rw [hrest.1, hrest.2.1] at he
            simp at he
          rw [hnot]
          simp
    have hlive' : active = true → tailLive w rs := by
      intro ha r' hr'
      refine hlive ha r' ?_
      cases rs with
      | nil => simp at hr'
      | cons a as => rw [List.getLast?_cons_cons]; exact hr'
    have hnext := @ih (off + 4) n hrest (fun r' h => hclean r' (List.mem_cons_of_mem _ h))
      (by omega) (by omega) (by rw [show off + 4 + 4 * rs.length = off + 4 * (rs.length + 1) by omega]
                                exact hfree) hlive'
    rw [scanRecords, hr, herased, if_neg (by simp), if_pos htaken]
    dsimp only
    rw [hnext, List.length_cons]
    by_cases hl : rs.length = n
    · rw [if_pos hl, if_pos (by omega)]
    · rw [if_neg hl, if_neg (by omega)]

end Scan

/-! ## The records of all sectors -/

/-- The first place for a record in the sector at place `k` of the sequence. -/
def logBegin (fs : Fs) (k : Nat) : Nat := indexSectorBegin fs (logicalIndexSector fs k)

/-- The end of the sector at place `k` of the sequence. -/
def logEnd (fs : Fs) (k : Nat) : Nat := (logicalIndexSector fs k + 1) * fs.sectorSize

/-- The index sectors of the sequence hold the records `logs`, the oldest sector
first, and nothing after them. -/
structure LogOn (w : World) (logs : List (List IndexRecord)) : Prop where
  count : logs.length = w.fs.indexSequenceCount
  records : ∀ k < logs.length, Records w.dev.mem (logBegin w.fs k) (logs.getD k [])
  room : ∀ k < logs.length, (logs.getD k []).length ≤ recordPlaces w.fs
  free : ∀ k < logs.length,
    freeFrom w.dev.mem (logBegin w.fs k + 4 * (logs.getD k []).length) (logEnd w.fs k) = true
  clean : ∀ rs ∈ logs, ∀ r ∈ rs, r.clean w.fs = true
  next : w.fs.nextIndexOffset =
    indexSectorBegin w.fs w.fs.activeIndexSector + 4 * (logs.getLast?.getD []).length

/-- The fields of a mounted file system that place its log on the flash. -/
structure LogView where
  sectorSize : Nat
  sectorCount : Nat
  indexSectors : Nat
  oldestIndexSector : Nat
  indexSequenceCount : Nat
  activeIndexSector : Nat
  nextIndexOffset : Nat

/-- The view of a mounted file system. -/
def logView (fs : Fs) : LogView where
  sectorSize := fs.sectorSize
  sectorCount := fs.sectorCount
  indexSectors := fs.indexSectors
  oldestIndexSector := fs.oldestIndexSector
  indexSequenceCount := fs.indexSequenceCount
  activeIndexSector := fs.activeIndexSector
  nextIndexOffset := fs.nextIndexOffset

/-- The log depends on its place and on the bytes there. -/
theorem LogOn.congr {w w' : World} {logs : List (List IndexRecord)} (h : LogOn w logs)
    (hview : logView w'.fs = logView w.fs)
    (hget : ∀ k < logs.length, ∀ i, logBegin w.fs k ≤ i → i < logEnd w.fs k →
      Nor.get w'.dev.mem i = Nor.get w.dev.mem i)
    (hroom : ∀ k, logBegin w.fs k + 4 * recordPlaces w.fs ≤ logEnd w.fs k) : LogOn w' logs := by
  simp only [logView, LogView.mk.injEq] at hview
  obtain ⟨h1, h2, h3, h4, h5, h6, h7⟩ := hview
  have hbegin : ∀ k, logBegin w'.fs k = logBegin w.fs k := by
    intro k
    rw [logBegin, logBegin, indexSectorBegin, indexSectorBegin, logicalIndexSector, logicalIndexSector,
      h1, h3, h4]
  have hend : ∀ k, logEnd w'.fs k = logEnd w.fs k := by
    intro k
    rw [logEnd, logEnd, logicalIndexSector, logicalIndexSector, h1, h3, h4]
  have hplaces : recordPlaces w'.fs = recordPlaces w.fs := by rw [recordPlaces, recordPlaces, h1]
  refine ⟨h.count.trans h5.symm, fun k hk => ?_, fun k hk => ?_, fun k hk => ?_, fun rs hrs r hr => ?_, ?_⟩
  · rw [hbegin]
    refine (h.records k hk).congr fun i hi1 hi2 => hget k hk i hi1 ?_
    have hle := h.room k hk
    have hle' := hroom k
    omega
  · rw [hplaces]
    exact h.room k hk
  · rw [hbegin, hend, freeFrom_congr fun i hi1 hi2 => hget k hk i (by omega) hi2]
    exact h.free k hk
  · have hc := h.clean rs hrs r hr
    rw [IndexRecord.clean, IndexRecord.malformed] at hc ⊢
    rw [h2, h3]
    exact hc
  · rw [h7, indexSectorBegin, h1, h6]
    exact h.next

theorem logicalIndexSector_lt {fs : Fs} (h : 0 < fs.indexSectors) (k : Nat) :
    logicalIndexSector fs k < fs.indexSectors := Nat.mod_lt _ h

theorem logicalIndexSector_succ {fs : Fs} (h : 0 < fs.indexSectors) (k : Nat) :
    nextIndexSector fs (logicalIndexSector fs k) = logicalIndexSector fs (k + 1) := by
  have hlt := logicalIndexSector_lt h k
  have hmod : logicalIndexSector fs (k + 1) = (logicalIndexSector fs k + 1) % fs.indexSectors := by
    rw [logicalIndexSector, logicalIndexSector, Nat.mod_add_mod, Nat.add_assoc]
  rw [nextIndexSector, hmod]
  split
  · next hge =>
    have heq : logicalIndexSector fs k + 1 = fs.indexSectors := by omega
    rw [heq, Nat.mod_self]
  · next hlt' => rw [Nat.mod_eq_of_lt (by omega)]

theorem logicalIndexSector_zero {fs : Fs} (h : fs.oldestIndexSector < fs.indexSectors) :
    logicalIndexSector fs 0 = fs.oldestIndexSector := by
  rw [logicalIndexSector, Nat.add_zero, Nat.mod_eq_of_lt h]

section Log

variable {w : World} {logs : List (List IndexRecord)}

theorem logEnd_eq {fs : Fs} (hsize : 256 ≤ fs.sectorSize) (haligned : fs.sectorSize % 4 = 0) (k : Nat) :
    logEnd fs k = logBegin fs k + 4 * recordPlaces fs := by
  rw [logEnd, logBegin, indexSectorBegin, recordPlaces, headerSize, Nat.add_mul]
  omega

theorem getD_mem_logs {k : Nat} (hk : k < logs.length) : logs.getD k [] ∈ logs := by
  rw [List.getD_eq_getElem _ _ hk]
  exact List.getElem_mem hk

theorem drop_logs {k : Nat} (hk : k < logs.length) :
    logs.drop k = logs.getD k [] :: logs.drop (k + 1) := by
  rw [List.getD_eq_getElem _ _ hk]
  exact List.drop_eq_getElem_cons hk

theorem getLast_logs {k : Nat} (hk : k + 1 = logs.length) :
    logs.getLast?.getD [] = logs.getD k [] := by
  rw [List.getLast?_eq_getElem?, ← hk, Nat.add_sub_cancel, List.getD_eq_getElem?_getD]

/-- The scan of one sector of the log. -/
theorem LogOn.scanSector_eq (h : LogOn w logs) (hsize : 256 ≤ w.fs.sectorSize)
    (haligned : w.fs.sectorSize % 4 = 0) {k : Nat} (hk : k < logs.length)
    (hlive : logicalIndexSector w.fs k = w.fs.activeIndexSector → tailLive w (logs.getD k [])) :
    scanSector w (logicalIndexSector w.fs k) =
      ⟨logs.getD k [], if (logs.getD k []).length = recordPlaces w.fs then .full else .free⟩ := by
  have hend := logEnd_eq hsize haligned k
  refine scanRecords_of_records (h.records k hk) (h.clean _ (getD_mem_logs hk)) (h.room k hk) hend
    (h.free k hk) ?_
  intro hactive
  exact hlive (beq_iff_eq.mp hactive)

/-- The scan of the log. -/
theorem LogOn.scanLog_from (h : LogOn w logs) (hsize : 256 ≤ w.fs.sectorSize)
    (haligned : w.fs.sectorSize % 4 = 0) (hsectors : 0 < w.fs.indexSectors)
    (hlive : tailLive w (logs.getLast?.getD [])) {n k : Nat} (hk : k + n + 1 = logs.length)
    (hlast : activeLast w.fs n (logicalIndexSector w.fs k)) :
    (scanLog w (n + 1) (logicalIndexSector w.fs k)).records = (logs.drop k).flatten ∧
      (scanLog w (n + 1) (logicalIndexSector w.fs k)).stop ≠ .bad ∧
      (scanLog w (n + 1) (logicalIndexSector w.fs k)).offset = w.fs.nextIndexOffset := by
  induction n generalizing k with
  | zero =>
    have hklt : k < logs.length := by omega
    have hactive : logicalIndexSector w.fs k = w.fs.activeIndexSector := hlast
    have hlastget := @getLast_logs logs k (by omega)
    have hscan := h.scanSector_eq hsize haligned hklt fun _ => hlastget ▸ hlive
    have hnil : logs.drop (k + 1) = [] := List.drop_eq_nil_of_le (by omega)
    rw [scanLog, if_pos (.inr rfl)]
    dsimp only
    rw [hscan, drop_logs hklt, hnil, List.flatten_cons, List.flatten_nil, List.append_nil]
    refine ⟨rfl, ?_, ?_⟩
    · dsimp only
      split <;> simp
    · rw [h.next, hlastget, hactive]
  | succ n ih =>
    have hklt : k < logs.length := by omega
    have hscan := h.scanSector_eq hsize haligned hklt fun hactive => absurd hactive hlast.1
    have hnext := logicalIndexSector_succ hsectors k
    obtain ⟨h1, h2, h3⟩ := ih (k := k + 1) (by omega) (hnext ▸ hlast.2)
    rw [scanLog, hscan, hnext, if_neg (not_or.mpr ⟨by dsimp only; split <;> simp, by omega⟩)]
    dsimp only
    exact ⟨by rw [h1, drop_logs hklt, List.flatten_cons], h2, h3⟩

end Log

end Fastffs
