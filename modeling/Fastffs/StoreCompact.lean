import Fastffs.StoreGc

/-!
# Compaction keeps the store

A compaction copies the live roots of a sector to others, one after the other, and erases the
sector.  After each copy the index points to the new root, and the old one is a copy of it.  So
at every point each live root holds the current version of its file, also when the compaction
stops in the middle.
-/

namespace Fastffs

open Prog
open Nor (Byte Mem blank)

/-! ## Copying the data of a root -/

section Copy

variable {w : World} {chunk fuel src dst len : Nat}

/-- The loop of `gc_copy_root_data` copies the bytes, by chunks. -/
theorem copyRootDataLoop_run (hplan : w.dev.plan = []) (hg : 0 < w.dev.programGranule)
    (hsize : w.dev.size % w.dev.programGranule = 0) (hsrc : src + len ≤ w.dev.size) (hdst : dst + len ≤ w.dev.size)
    (hapart : src + len ≤ dst ∨ dst + len ≤ src) (hchunk : 0 < chunk) (hfuel : len ≤ fuel) :
    (copyRootDataLoop chunk fuel src dst len).run w =
      (.ok (), w.withMem (Nor.program w.dev.mem dst (Nor.read w.dev.mem src len)) []) := by
  induction fuel generalizing w src dst len with
  | zero =>
    obtain rfl : len = 0 := Nat.le_zero.mp hfuel
    rw [Nor.read, World.withMem_nil hplan]
    rfl
  | succ fuel ih =>
    rw [copyRootDataLoop]
    split
    · next hzero =>
      subst hzero
      rw [Nor.read, World.withMem_nil hplan]
      rfl
    · next hpos =>
      obtain ⟨n, hn⟩ : ∃ n, min len chunk = n := ⟨_, rfl⟩
      dsimp only
      rw [hn]
      have hle : n ≤ len := hn ▸ Nat.min_le_left _ _
      have hn0 : 0 < n := by omega
      have hlen : (Nor.read w.dev.mem src n).length = n := Nor.length_read ..
      rw [bind_of_ok (flashRead_run hplan (by omega)),
        bind_of_ok (programAligned_run hplan hg hsize (by rw [hlen]; omega)),
        ih (w := w.withMem (Nor.program w.dev.mem dst (Nor.read w.dev.mem src n)) []) rfl hg hsize
          (show src + n + (len - n) ≤ w.dev.size by omega) (show dst + n + (len - n) ≤ w.dev.size by omega)
          (by omega) (by omega)]
      -- what is read later has not been programmed
      have hrest : Nor.read (Nor.program w.dev.mem dst (Nor.read w.dev.mem src n)) (src + n) (len - n) =
          Nor.read w.dev.mem (src + n) (len - n) :=
        Nor.read_program_of_disjoint (by rw [hlen]; omega)
      have hall : Nor.program (Nor.program w.dev.mem dst (Nor.read w.dev.mem src n)) (dst + n)
          (Nor.read w.dev.mem (src + n) (len - n)) = Nor.program w.dev.mem dst (Nor.read w.dev.mem src len) := by
        have happend := Nor.program_append w.dev.mem dst (Nor.read w.dev.mem src n)
          (Nor.read w.dev.mem (src + n) (len - n))
        rw [hlen, ← Nor.read_append, Nat.add_sub_cancel' hle] at happend
        exact happend
      change (_, w.withMem (Nor.program (Nor.program w.dev.mem dst (Nor.read w.dev.mem src n)) (dst + n)
        (Nor.read (Nor.program w.dev.mem dst (Nor.read w.dev.mem src n)) (src + n) (len - n))) []) = _
      rw [hrest, hall]

end Copy

variable [Opts] {S c n s slot len source lim : Nat} {x : Prop} {F : Nat → Option SmallFile}
  {st st' : Shelves Nat Nat Entry} {bad : Nat → Prop} {v w w' : World} {e : Entry} {reader : SectorReader}

/-! ## The window over the source -/

/-- The collector does not walk, and the window of a compaction still shows its source below `lim`. -/
structure Looks (S c n : Nat) (x : Prop) (F : Nat → Option SmallFile) (v : World) (st : Shelves Nat Nat Entry)
    (bad : Nat → Prop) (source lim : Nat) (reader : SectorReader) (w : World) : Prop
    extends WalkEnd S c n x F v st bad w where
  shows : reader.Shows source lim w
  lim_le : lim ≤ S - sectorFooterSize

/-- A change of a sector that leaves the records alone, or of another sector. -/
theorem Looks.inside (h : Looks S c n x F v st bad source lim reader w) (hstored : Stored S c n st bad w')
    (hsame : SameWork w w') (hin : Inside S s (S - sectorFooterSize) S w w') :
    Looks S c n x F v st bad source lim reader w' where
  holds := { h.holds with idle := hsame.openFiles.trans h.holds.idle, stored := hstored }
  files := hsame.files.trans h.files
  idle := hsame.gcMd ▸ h.idle
  lim_le := h.lim_le
  shows := by
    have hS := h.holds.stored.sectorSize
    have hle := h.lim_le.trans (Nat.sub_le _ _)
    by_cases hsource : source = s
    · subst hsource
      exact h.shows.touches hS (hin.touches h.holds.stored.plan) hle (.inl h.lim_le)
    · exact h.shows.touches hS (hin.other le_rfl h.holds.stored.plan hsource) hle (.inr rfl)

theorem Looks.setFs {fs : Fs} (h : Looks S c n x F v st bad source lim reader w) (hfs : indexFs fs = indexFs w.fs)
    (hopen : fs.openFiles = w.fs.openFiles) (hidle : fs.gcMd.active = false) :
    Looks S c n x F v st bad source lim reader { w with fs := fs } where
  toWalkEnd := h.toWalkEnd.setFs hfs hopen hidle
  shows := h.shows.congr (indexFs_view hfs Fs.sectorSize fun _ => rfl) rfl fun _ _ => rfl
  lim_le := h.lim_le

/-- A program that changes no byte and nothing of the collector. -/
theorem Looks.keeps {α : Type} {y : M α} (hin : ∀ w, Keeps (Inside S 0 0 0 w) y)
    (hwork : ∀ w, Keeps (SameWork w) y) : Keeps (Looks S c n x F v st bad source lim reader) y := by
  constructor
  intro w h
  have hquiet := (hin w).keeps w .refl
  refine { (WalkEnd.keeps hin hwork).keeps w h.toWalkEnd with shows := ?_, lim_le := h.lim_le }
  exact h.shows.congr (hquiet.view Fs.sectorSize fun _ => rfl) hquiet.size
    fun _ _ => hquiet.bytes _ (Nat.lt_or_ge _ _)

instance : ReadInv (Looks S c n x F v st bad source lim reader) where
  ofRead h := { toWalkEnd := ReadInv.ofRead h.toWalkEnd, shows := h.shows.congr rfl rfl fun _ _ => rfl,
                lim_le := h.lim_le }

instance (t : Nat) : Keeps (Looks S c n x F v st bad source lim reader) (allocMapMarkUnknown t) :=
  Looks.keeps (fun _ => inferInstance) fun _ => inferInstance

instance (t : Nat) : Keeps (Looks S c n x F v st bad source lim reader) (allocCompactionReserveRemove t) :=
  ⟨fun _ h => h.setFs rfl rfl h.idle⟩

instance (act : Act) : Keeps (Looks S c n x F v st bad source lim reader) (note act) :=
  Looks.keeps (fun _ => inferInstance) fun _ => inferInstance

/-! ## A window for the copy -/

/-- The window is one of a good sector. -/
def Offers (S c n : Nat) (st : Shelves Nat Nat Entry) (bad : Nat → Prop) (slot len : Nat) (d : Nat × FreeWindow) :
    Prop :=
  InData n c d.1 ∧ ¬ bad d.1 ∧ Vacant S (st.items d.1) slot len d.2

theorem findSectorFreeWindow_takes {normal : Bool} (hlen : 0 < len) :
    Yields (Looks S c n x F v st bad source lim reader) (findSectorFreeWindow s len slot normal) fun win =>
      Offers S c n st bad slot len (s, win) := by
  refine ⟨fun w h => ?_, fun w win h hok => ?_⟩
  · obtain ⟨hstored, hsame, hin, -⟩ := h.holds.stored.find rfl
    exact h.inside hstored hsame hin
  · obtain ⟨-, -, -, hwin⟩ := h.holds.stored.find rfl
    exact hwin win hok hlen

theorem compactionReserveLoop_takes (hlen : 0 < len) {list : List Nat} {best : Option (Nat × FreeWindow)}
    (h : ∀ b, best = some b → Offers S c n st bad slot len b) :
    Yields (Looks S c n x F v st bad source lim reader) (compactionReserveLoop slot len list best) fun found =>
      ∀ b, found = some b → Offers S c n st bad slot len b := by
  induction list generalizing best with
  | nil => exact .pure h
  | cons reserved rest ih =>
    rw [compactionReserveLoop]
    refine (findSectorFreeWindow_takes hlen).attempt.bind fun r hr => ?_
    split
    · exact ih h
    · exact .throw _
    · next win =>
      have hbest : ∀ b, some (reserved, win) = some b → Offers S c n st bad slot len b := by
        intro b hb
        cases hb
        exact hr win rfl
      have heither : ∀ better : Bool, ∀ b, (if better then some (reserved, win) else best) = some b →
          Offers S c n st bad slot len b := by
        intro better
        cases better with
        | false => exact h
        | true => exact hbest
      exact Yields.ite (fun _ => ih (heither _)) fun _ => .pure hbest

theorem compactionWindowLoop_takes (hlen : 0 < len) {fuel : Nat} {normal : Bool} :
    Yields (Looks S c n x F v st bad source lim reader) (compactionWindowLoop source slot len normal fuel s) fun found =>
      ∀ b, found = some b → Offers S c n st bad slot len b := by
  induction fuel generalizing s with
  | zero => exact .pure fun _ hno => by cases hno
  | succ fuel ih =>
    rw [compactionWindowLoop]
    refine (Yields.ofKeeps (x := Prog.get)).bind fun w _ => ?_
    refine Yields.ite (fun _ => ih) fun _ => (findSectorFreeWindow_takes hlen).attempt.bind fun r hr => ?_
    split
    · next win =>
      have hcursor : Keeps (Looks S c n x F v st bad source lim reader) (modifyFs fun fs =>
          { fs with allocCursor := if win.mdRecords ≥ allocTargetDensity then nextDataSector w.fs s else s }) :=
        ⟨fun _ h => h.setFs rfl rfl h.idle⟩
      refine Yields.ofKeeps.bind fun _ _ => .pure ?_
      intro b hb
      cases hb
      exact hr win rfl
    · exact ih
    · exact .throw _

/-- `fffs_alloc_find_compaction_root_window` gives a window of a good sector. -/
theorem allocFindCompactionRootWindow_takes {relaxed : Bool} (hlen : 0 < len) :
    Yields (Looks S c n x F v st bad source lim reader) (allocFindCompactionRootWindow source slot len relaxed)
      (Offers S c n st bad slot len) := by
  have hscan : ∀ normal k s, Yields (Looks S c n x F v st bad source lim reader)
      (compactionWindowLoop source slot len normal k s) fun found =>
        ∀ b, found = some b → Offers S c n st bad slot len b := fun _ _ _ => compactionWindowLoop_takes hlen
  have hfind : Yields (Looks S c n x F v st bad source lim reader) (findCompactionRootWindow source slot len relaxed)
      (Offers S c n st bad slot len) := by
    rw [findCompactionRootWindow]
    refine Yields.ofKeeps.bind fun fs _ =>
      (compactionReserveLoop_takes hlen fun _ hb => by cases hb).bind fun found hfound => ?_
    split
    · exact Yields.ofKeeps.bind fun _ _ => Yields.ofKeeps.bind fun _ _ => .pure (hfound _ rfl)
    · refine Yields.ofKeeps.bind fun fs _ => (hscan _ _ _).bind fun found hfound => ?_
      split
      · exact .pure (hfound _ rfl)
      · refine Yields.ite (fun _ => Yields.ofKeeps.bind fun fs _ => (hscan _ _ _).bind fun found hfound => ?_)
          fun _ => .throw _
        split
        · exact .pure (hfound _ rfl)
        · exact .throw _
  rw [allocFindCompactionRootWindow]
  exact hfind.bind fun d hd => Yields.ofKeeps.bind fun _ _ => .pure hd

/-! ## Copying a root -/

/-- What a copy of the root of a slot leaves. -/
structure RootCopied (S c n : Nat) (F : Nat → Option SmallFile) (v : World) (source lim : Nat) (reader : SectorReader)
    (slot : Nat) (bad : Nat → Prop) (st st' : Shelves Nat Nat Entry) (r : Except Status Unit) (w : World) :
    Prop where
  looks : Looks S c n False F v st' bad source lim reader w
  items : st'.items source = st.items source
  head : ∀ k, k ≠ slot → st'.head k = st.head k
  moved : r = .ok () → st'.head slot ≠ some source

/-- The data of an entry are copied to a window of another sector. -/
theorem Holds.copyData {d : Nat} {win : FreeWindow} (h : Holds S c n x F st bad w) (hs : InData n c s)
    (hgood : ¬ bad s) (he : e ∈ st.items s) (hd : InData n c d) (hdgood : ¬ bad d) (hne : d ≠ s)
    (hwin : Vacant S (st.items d) slot e.md.dataLen win) :
    ∃ w', (gcCopyRootData s e.md d win.dataOff).run w = (.ok (), w') ∧
      Inside S d win.dataOff (win.dataOff + e.md.dataLen) w w' ∧ SameWork w w' ∧
      Nor.read w'.dev.mem (d * S + win.dataOff) e.md.dataLen = e.file.image := by
  have hp := h.stored.place hd
  have hps := h.stored.place hs
  have hfs := h.stored.filed s hs hgood
  have hfd := h.stored.filed d hd hdgood
  obtain ⟨hend, hle⟩ := hfs.length_le he
  rw [MdRecord.dataEnd] at hend
  have hplace := hwin.place
  have hroom := hwin.room
  have hlow := hwin.record_le hfd
  have hoffle : win.dataOff + e.md.dataLen ≤ S := by
    rw [mdFileRecordSize] at hlow
    omega
  have hmul : s * S + S ≤ d * S ∨ d * S + S ≤ s * S := by
    rcases Nat.lt_or_gt_of_ne hne with hlt | hgt
    · exact .inr (by rw [← Nat.succ_mul]; exact Nat.mul_le_mul_right S hlt)
    · exact .inl (by rw [← Nat.succ_mul]; exact Nat.mul_le_mul_right S hgt)
  have hins := hps.inside
  have hind := hp.inside
  rw [Nat.succ_mul] at hins hind
  have hrun := @copyRootDataLoop_run w w.fs.scratchSize e.md.dataLen (s * S + e.md.dataOff) (d * S + win.dataOff)
    e.md.dataLen hp.plan hp.granule hp.aligned (by omega) (by omega) (by omega)
    hp.scratch le_rfl
  rw [hfs.data e he] at hrun
  have hwhole := (hfs.whole e he).len
  refine ⟨w.withMem (Nor.program w.dev.mem (d * S + win.dataOff) e.file.image) [], ?_, ?_,
    ⟨rfl, rfl, rfl, rfl, rfl, rfl, rfl⟩, ?_⟩
  · rw [gcCopyRootData, bind_of_ok (run_getFs w), hp.sectorSize]
    exact hrun
  · exact Inside.program .refl le_rfl (by rw [hwhole])
  · change Nor.read (Nor.program w.dev.mem (d * S + win.dataOff) e.file.image) _ _ = _
    refine Nor.read_program_blank (Nor.read_eq_blanks fun i hlo hhi => ?_) _ hwhole.symm
    rw [← Nat.add_sub_cancel' (show d * S ≤ i by omega)]
    have hoff := hwin.off
    exact hfd.recorded.gap _ (by omega) (by omega)

/-- The copy of a root becomes the root of its slot, or the index has no room. -/
theorem gcCopyRootRecord_run {relaxed : Bool} (h : Looks S c n False F v st bad s lim reader w)
    (he : e ∈ st.items s) (hlive : e.md.live = true) : ∃ st', RootCopied S c n F v s lim reader e.md.slot bad st st'
      ((gcCopyRootRecord s e.md relaxed).run w).1 ((gcCopyRootRecord s e.md relaxed).run w).2 := by
  have hs : InData n c s := by
    by_contra hs
    rw [h.holds.stored.outside s hs] at he
    cases he
  have hgood : ¬ bad s := by
    intro hbad
    rw [(h.holds.stored.condemned s hs hbad).1] at he
    cases he
  have hwhole := (h.holds.stored.filed s hs hgood).whole e he
  have hlen : 0 < e.md.dataLen := Nat.lt_of_lt_of_le (by decide) hwhole.len_ge
  have hfind := @allocFindCompactionRootWindow_takes _ S c n e.md.slot e.md.dataLen s lim False F st bad v reader
    relaxed hlen
  rw [gcCopyRootRecord]
  refine run_bind_cases (J := fun r w' => ∃ st', RootCopied S c n F v s lim reader e.md.slot bad st st' r w')
    (fun err w1 hrun => ?_) fun a w1 hrun => ?_
  · have h1 := hfind.keeps w h
    rw [hrun] at h1
    exact ⟨st, h1, rfl, fun _ _ => rfl, fun hno => by cases hno⟩
  have h1 := hfind.keeps w h
  obtain ⟨hd, hdgood, hwin⟩ := hfind.value w a h (congrArg Prod.fst hrun)
  rw [hrun] at h1
  obtain ⟨d, win⟩ := a
  dsimp only at h1 hd hdgood hwin ⊢
  have hne : d ≠ s := by
    rintro rfl
    exact hwin.lacks e he hlive rfl
  obtain ⟨w2, hcopy, hin2, hsame2, hread⟩ := h1.holds.copyData hs hgood he hd hdgood hne hwin
  rw [bind_of_ok hcopy, if_neg (by rw [hwhole.span]; decide), hwhole.next]
  have hname := hwhole.name
  have hslot := hwhole.slot
  have hfd := h1.holds.stored.filed d hd hdgood
  rw [hwhole.len] at hin2 hread hwin
  obtain ⟨w3, hprogram, hin3, hf3⟩ := hfd.program h1.holds.stored.small hwin hwin.room hslot hname hin2 hread
  have hsame3 : SameWork w2 w3 := by
    have hkept := (inferInstance : Keeps (SameWork w2) (programExtentMetadata d e.md.slot mdTypeFileRootV1
      win.dataOff win.recordOff win.needsFooter e.file.image.length 1 e.file.bytes.length 0 true)).keeps w2 .refl
    rw [hprogram] at hkept
    exact hkept
  rw [hwhole.len, hwhole.size, bind_of_ok hprogram]
  -- the copy is on the flash, and the index still points to the old root
  have hshelved := h1.holds.stored.sector hin3 le_rfl hd (fun t _ => @Iff.rfl (bad t)) (fun _ => hf3)
    fun hb => absurd hb hdgood
  have hidle : w3.fs.gcMd.active = false := by rw [hsame3.gcMd, hsame2.gcMd, h1.idle]
  have hstored : Stored S c n (st.stray d (rootEntry e.md.slot win e.file)) bad w3 :=
    ⟨hshelved, fun hno => by rw [hidle] at hno; cases hno⟩
  have hopen : w3.fs.openFiles = [] := by rw [hsame3.openFiles, hsame2.openFiles, h1.holds.idle]
  have hfiles : w3.files = v.files := by rw [hsame3.files, hsame2.files, h1.files]
  have hlacks : Item.Lacks (Item.key (rootEntry e.md.slot win e.file)) (st.items d) := hwin.lacks
  have hval : st.get (Item.key (rootEntry e.md.slot win e.file)) = some (Item.val (rootEntry e.md.slot win e.file)) :=
    h.holds.tidy.faithful s e he hlive
  have hitems : ∀ es, Function.update st.items d es s = st.items s := fun es => Function.update_of_ne hne.symm _ _
  obtain ⟨q, hq⟩ := h.holds.tidy.head_of_live he hlive
  have hd0 : d ≠ 0 := Nat.ne_of_gt (hstored.pos.trans_le hd.1)
  have hroom : tableRoom w3 ⟨e.md.slot, d⟩ := by
    refine fun _ => .inl ⟨fun hno => ?_, fun hno => absurd hno hd0⟩
    rw [slotHead, hstored.headForSlot hslot.1] at hno
    cases hq.symm.trans (Except.ok.inj hno)
  -- neither the copy nor the index lies in the sector the window shows
  have hlim := h.lim_le.trans (Nat.sub_le _ _)
  have hshows3 : reader.Shows s lim w3 := h1.shows.touches h1.holds.stored.sectorSize
    (hin3.other le_rfl h1.holds.stored.plan hne.symm) hlim (.inr rfl)
  obtain ⟨w4, hsame4, ht4, happends⟩ := hstored.appendIndex hslot (.inr hd) hroom
  have hshows4 : reader.Shows s lim w4 := hshows3.touches hstored.sectorSize (ht4 s hs) hlim (.inr rfl)
  rcases happends with ⟨happend, hstored4⟩ | ⟨happend, hstored4⟩
  · have hadd : { st.stray d (rootEntry e.md.slot win e.file) with
        head := Function.update st.head e.md.slot (headOf d) } = st.add d (rootEntry e.md.slot win e.file) := by
      rw [headOf, if_neg hd0]
      rfl
    change Stored S c n { st.stray d (rootEntry e.md.slot win e.file) with
      head := Function.update st.head e.md.slot (headOf d) } bad w4 at hstored4
    rw [hadd] at hstored4
    rw [happend]
    refine ⟨_, ⟨⟨⟨hsame4.openFiles.trans hopen, hstored4, h.holds.tidy.copy rfl hlacks hval, fun hno => hno.elim,
      (Shelves.get_copy rfl hlacks hval).trans h.holds.get⟩, hsame4.files.trans hfiles, hsame4.gcMd ▸ hidle⟩,
      hshows4, h.lim_le⟩, hitems _, fun k hk => Function.update_of_ne hk _ _, fun _ hno => hne ?_⟩
    change Function.update st.head e.md.slot (some d) e.md.slot = some s at hno
    rw [Function.update_self] at hno
    exact Option.some.inj hno
  · rw [happend]
    exact ⟨_, ⟨⟨⟨hsame4.openFiles.trans hopen, hstored4, h.holds.tidy.stray hlacks hval, fun hno => hno.elim,
      h.holds.tidy.get_stray.trans h.holds.get⟩, hsame4.files.trans hfiles, hsame4.gcMd ▸ hidle⟩, hshows4, h.lim_le⟩,
      hitems _, fun k _ => rfl, fun hno => by cases hno⟩

/-! ## Copying the roots of a sector -/

/-- The live roots of the list have been copied to other sectors. -/
def Moved (st : Shelves Nat Nat Entry) (s : Nat) (es : List Entry) : Prop :=
  ∀ e ∈ es, e.md.live = true → st.head e.md.slot ≠ some s

omit [Opts] in
/-- The other live roots of the sector are not moved with a root. -/
theorem Moved.step {front back : List Entry} (h : Moved st s front) (hsingle : Item.Single (front ++ e :: back))
    (hlive : e.md.live = true) (hhead : ∀ k, k ≠ e.md.slot → st'.head k = st.head k) : Moved st' s front := by
  intro a ha halive
  rw [Item.Single, List.pairwise_append] at hsingle
  have hne : a.md.slot ≠ e.md.slot := hsingle.2.2 a ha e List.mem_cons_self halive hlive
  rw [hhead _ hne]
  exact h a ha halive

/-- What the copy loop leaves. -/
structure CopyEnd (S c n : Nat) (F : Nat → Option SmallFile) (v : World) (s : Nat) (bad : Nat → Prop)
    (st : Shelves Nat Nat Entry) (front back : List Entry) (status : Except Status Unit) (copied : Nat) (w : World) :
    Prop where
  walkEnd : WalkEnd S c n False F v st bad w
  items : st.items s = front ++ back
  moved : Moved st s front
  copied : copied ≤ front.length
  ended : status = .ok () → back = []

theorem compactRootLoop_run {relaxed : Bool} {fuel entry copied : Nat} {walk : MdWalk} {front back : List Entry}
    (hs : InData n c s) (hgood : ¬ bad s) (h : WalkEnd S c n False F v st bad w)
    (hitems : st.items s = front ++ back) (hmoved : Moved st s front)
    (hwalk : walk.Before S s (records (st.items s)) (records back)) (hreader : reader.Shows s walk.cursor w)
    (hentry : entry = front.length) (hcopied : copied ≤ entry) (hfuel : back.length < fuel) :
    ∃ status copied' w' st' front' back', (compactRootLoop s relaxed fuel reader walk entry copied).run w =
      (.ok (status, copied'), w') ∧ CopyEnd S c n F v s bad st' front' back' status copied' w' := by
  induction fuel generalizing w st reader walk front back entry copied with
  | zero => exact absurd hfuel (Nat.not_lt_zero _)
  | succ fuel ih =>
    subst hentry
    have hf := h.holds.stored.filed s hs hgood
    rw [compactRootLoop]
    split
    · next hinactive =>
      have hback : back = [] := by
        by_contra hback
        exact absurd (hwalk.active fun hnil => hback (List.map_eq_nil_iff.mp hnil)) (by rw [hinactive]; decide)
      exact ⟨.ok (), copied, w, st, front, back, rfl, h, hitems, hmoved, hcopied, fun _ => hback⟩
    next hactive =>
    cases back with
    | nil =>
      obtain ⟨result, reader', hresult, hrun⟩ :=
        mdWalkNext_stops hf.recorded hwalk (by simpa using hactive) (hwalk.sector.symm ▸ hreader)
      rw [bind_of_ok (by rw [run_attempt, hrun])]
      dsimp only
      rw [if_neg (by rcases hresult with rfl | rfl <;> decide), if_pos (by rcases hresult with rfl | rfl <;> decide)]
      exact ⟨.ok (), copied, w, st, front, [], rfl, h, hitems, hmoved, hcopied, fun _ => rfl⟩
    | cons e back =>
      obtain ⟨reader', hrun, hnext, hreader'⟩ :=
        mdWalkNext_passes hf.recorded hwalk (hwalk.sector.symm ▸ hreader)
      rw [hwalk.sector] at hreader'
      rw [bind_of_ok (by rw [run_attempt, hrun])]
      dsimp only
      rw [if_neg (by decide), if_neg (by decide)]
      have hshift : front ++ e :: back = front ++ [e] ++ back := (List.append_assoc front [e] back).symm
      have hlength : (front ++ [e]).length = front.length + 1 := List.length_append
      have he : e ∈ st.items s := hitems ▸ List.mem_append_right _ List.mem_cons_self
      rw [List.length_cons] at hfuel
      split
      · next hlive =>
        have hpinned : slotIsPinned w e.md.slot = false := by rw [slotIsPinned, h.holds.idle]; rfl
        rw [bind_of_ok (run_get w), if_neg (by rw [(hf.whole e he).type, hpinned]; decide)]
        have hsingle := h.holds.tidy.single s
        rw [hitems] at hsingle
        have hlooks : Looks S c n False F v st bad s e.md.recordStart reader' w :=
          { toWalkEnd := h, shows := hreader', lim_le := hnext.cursor_le }
        obtain ⟨st1, hcopy⟩ := @gcCopyRootRecord_run _ _ _ _ _ _ _ _ _ _ _ _ _ relaxed hlooks he hlive
        generalize hres : (gcCopyRootRecord s e.md relaxed).run w = res at hcopy
        obtain ⟨res, w1⟩ := res
        rw [bind_of_ok (by rw [run_attempt, hres])]
        have hitems1 : st1.items s = front ++ e :: back := hcopy.items.trans hitems
        have hmoved1 : Moved st1 s front := hmoved.step hsingle hlive hcopy.head
        cases res with
        | error err =>
          exact ⟨.error err, copied, w1, st1, front, e :: back, rfl, hcopy.looks.toWalkEnd, hitems1, hmoved1, hcopied,
            fun hno => by cases hno⟩
        | ok u =>
          refine ih hcopy.looks.toWalkEnd (hitems1.trans hshift) (fun a ha halive => ?_) ?_ hcopy.looks.shows
            hlength.symm le_rfl (by omega)
          · rcases List.mem_append.mp ha with hmem | hone
            · exact hmoved1 a hmem halive
            · rw [List.mem_singleton.mp hone]
              exact hcopy.moved rfl
          · rw [hcopy.items]
            exact hnext
      · next hdead =>
        refine ih h (hitems.trans hshift) (fun a ha halive => ?_) hnext hreader' hlength.symm (by omega) (by omega)
        rcases List.mem_append.mp ha with hmem | hone
        · exact hmoved a hmem halive
        · rw [List.mem_singleton.mp hone] at halive
          exact absurd halive hdead

/-! ## The end of a compaction -/

omit [Opts] in
/-- A walk stands where it was in the records of a sector with an entry killed. -/
theorem MdWalk.Before.killed {walk : MdWalk} {front back : List Entry}
    (h : walk.Before S s (records (front ++ e :: back)) (records back)) :
    walk.Before S s (records (front ++ e.kill :: back)) (records back) := by
  have hrecords : ∀ a : Entry, records (front ++ a :: back) = records front ++ a.md :: records back := fun a => by
    rw [records, List.map_append]
    rfl
  rw [hrecords] at h ⊢
  refine { h with mem := fun r hr => ?_, lowest := ?_, claimed := ?_ }
  · exact List.mem_append_right _ (List.mem_cons_of_mem _ hr)
  · exact h.lowest.trans (lowest_replace rfl)
  · exact h.claimed.trans (claimedEnd_replace rfl)

/-- The roots that have been copied can be tombstoned. -/
theorem tombstoneCopiedLoop_kept {copied fuel entry : Nat} {walk : MdWalk} {front back : List Entry}
    (hs : InData n c s) (hgood : ¬ bad s) (h : WalkEnd S c n False F v st bad w)
    (hitems : st.items s = front ++ back) (hmoved : Moved st s (back.take (copied - entry)))
    (hwalk : walk.Before S s (records (st.items s)) (records back)) (hreader : reader.Shows s walk.cursor w) :
    ∃ st', WalkEnd S c n False F v st' bad ((tombstoneCopiedLoop s copied fuel reader walk entry).run w).2 := by
  induction fuel generalizing w st reader walk front back entry with
  | zero => exact ⟨st, h⟩
  | succ fuel ih =>
    have hf := h.holds.stored.filed s hs hgood
    rw [tombstoneCopiedLoop]
    split
    · exact ⟨st, h⟩
    next hgo =>
    simp only [not_or, not_le] at hgo
    cases back with
    | nil =>
      obtain ⟨result, reader', hresult, hrun⟩ :=
        mdWalkNext_stops hf.recorded hwalk (by simpa using hgo.1) (hwalk.sector.symm ▸ hreader)
      rw [bind_of_ok hrun]
      dsimp only
      rw [if_pos (by rcases hresult with rfl | rfl <;> decide)]
      exact ⟨st, h⟩
    | cons e back =>
      obtain ⟨reader', hrun, hnext, hreader'⟩ :=
        mdWalkNext_passes hf.recorded hwalk (hwalk.sector.symm ▸ hreader)
      rw [hwalk.sector] at hreader'
      rw [bind_of_ok hrun]
      dsimp only
      rw [if_neg (by decide)]
      have hshift : ∀ a : Entry, front ++ a :: back = front ++ [a] ++ back := fun a =>
        (List.append_assoc front [a] back).symm
      have htake : (e :: back).take (copied - entry) = e :: back.take (copied - (entry + 1)) := by
        rw [show copied - entry = copied - (entry + 1) + 1 by omega, List.take_succ_cons]
      rw [htake] at hmoved
      have hrest : Moved st s (back.take (copied - (entry + 1))) := fun a ha =>
        hmoved a (List.mem_cons_of_mem _ ha)
      by_cases hroot : e.md.live = true ∧ e.md.type = mdTypeFileRootV1
      · rw [when_pos hroot]
        obtain ⟨accounted, w1, htomb, hstored, hsame⟩ := h.holds.stored.tombstone hs hgood e.md.slot false
        have hne := hmoved e List.mem_cons_self hroot.1
        have h1 : WalkEnd S c n False F v (st.retire s e.md.slot) bad w1 :=
          ⟨⟨hsame.openFiles.trans h.holds.idle, hstored, h.holds.tidy.retire hne, fun hno => hno.elim,
            (Shelves.get_retire hne).trans h.holds.get⟩, hsame.files.trans h.files, hsame.gcMd ▸ h.idle⟩
        have h2 := (inferInstance : Keeps (WalkEnd S c n False F v (st.retire s e.md.slot) bad)
          (allocMapMarkUnknown s)).keeps w1 h1
        have hsingle := h.holds.tidy.single s
        rw [hitems, Item.Single, List.pairwise_append] at hsingle
        have hfirst : ∀ a ∈ front, a.md.live = true → a.md.slot ≠ e.md.slot := fun a ha hlive =>
          hsingle.2.2 a ha e List.mem_cons_self hlive hroot.1
        -- the byte that is programmed is one of the record the walk has passed
        have hfound : (records (st.items s)).find? (liveFor e.md.slot) = some e.md := by
          have hnone : (records front).find? (liveFor e.md.slot) = none := by
            refine List.find?_eq_none.mpr fun r hr hfor => ?_
            obtain ⟨a, ha, rfl⟩ := List.mem_map.mp hr
            rw [liveFor, Bool.and_eq_true, beq_iff_eq] at hfor
            exact hfirst a ha hfor.1 hfor.2
          rw [hitems, records, List.map_append, List.find?_append, ← records, hnone, List.map_cons]
          exact List.find?_cons_of_pos (by rw [liveFor, hroot.1, Bool.true_and, beq_self_eq_true])
        obtain ⟨_, w1', htomb', -, hinside⟩ := hf.recorded.tombstones e.md.slot false
        obtain rfl : w1 = w1' := congrArg Prod.snd (htomb.symm.trans htomb')
        have hlim := hnext.cursor_le.trans (Nat.sub_le _ _)
        have hshows1 : reader'.Shows s e.md.recordStart w1 := hreader'.touches h.holds.stored.sectorSize
          ((hinside _ hfound).touches h.holds.stored.plan) hlim (.inl le_rfl)
        have hshows2 : reader'.Shows s e.md.recordStart ((allocMapMarkUnknown s).run w1).2 := by
          have hquiet := (inferInstance : Keeps (Inside S 0 0 0 w1) (allocMapMarkUnknown s)).keeps w1 .refl
          exact hshows1.congr (hquiet.view Fs.sectorSize fun _ => rfl) hquiet.size
            fun _ _ => hquiet.bytes _ (Nat.lt_or_ge _ _)
        have hmark : (do
            let _ ← tombstoneMetadataForSlot s e.md.slot false
            allocMapMarkUnknown s).run w = (.ok (), ((allocMapMarkUnknown s).run w1).2) := by
          rw [bind_of_ok htomb]
          rfl
        rw [bind_of_ok hmark]
        have hitems2 : (st.retire s e.md.slot).items s = front ++ e.kill :: back := by
          rw [Shelves.retire_items, if_pos rfl, hitems]
          exact Item.killFirst_append_cons hfirst hroot.1
        refine ih h2 (hitems2.trans (hshift e.kill)) hrest ?_ hshows2
        rw [hitems2]
        rw [hitems] at hnext
        exact MdWalk.Before.killed hnext
      · rw [when_neg hroot, bind_of_ok (run_pure ..)]
        exact ih h (hitems.trans (hshift e)) hrest hnext hreader'

/-- The copy loop finds nothing in a condemned sector. -/
theorem compactRootLoop_condemned {relaxed : Bool} {fuel entry copied : Nat} {walk : MdWalk} {back es : List Entry}
    {w0 : World} (hf : Filed S c n s es w0) (hdead : ∀ e ∈ es, e.md.live = false)
    (ht : Touches S s (S - sectorFooterSize) S w0 w) (hwalk : walk.Before S s (records es) (records back))
    (hreader : reader.Shows walk.sector walk.cursor w) (hback : ∀ e ∈ back, e ∈ es) :
    (compactRootLoop s relaxed fuel reader walk entry copied).run w = (.ok (.ok (), copied), w) := by
  have hplan : w.dev.plan = [] := (hf.recorded.place.touch ht).plan
  induction fuel generalizing reader walk back entry with
  | zero => rfl
  | succ fuel ih =>
    rw [compactRootLoop]
    split
    · rfl
    next hactive =>
    cases back with
    | nil =>
      obtain ⟨result, hresult, hrun⟩ := directNext_stops hf.recorded hwalk (by simpa using hactive)
      obtain ⟨reader', hrun', -⟩ := mdWalkNext_shows hplan hreader
        (directNext_touches hf.recorded.place ht hwalk.sector hwalk.cursor_le hrun)
      rw [bind_of_ok (by rw [run_attempt, hrun'])]
      dsimp only
      rw [if_neg (by rcases hresult with rfl | rfl <;> decide), if_pos (by rcases hresult with rfl | rfl <;> decide)]
      rfl
    | cons e back =>
      obtain ⟨hrun, hnext⟩ := directNext_passes hf.recorded hwalk
      obtain ⟨reader', hrun', hreader'⟩ := mdWalkNext_shows hplan hreader
        (directNext_touches hf.recorded.place ht hwalk.sector hwalk.cursor_le hrun)
      rw [bind_of_ok (by rw [run_attempt, hrun'])]
      dsimp only
      rw [if_neg (by decide), if_neg (by decide), hdead e (hback e List.mem_cons_self), if_neg (by decide)]
      exact ih hnext hreader' fun a ha => hback a (List.mem_cons_of_mem _ ha)

/-- What a compaction leaves, whatever it returns. -/
structure Compacted (S c n : Nat) (F : Nat → Option SmallFile) (v : World) (r : Except Status Nat) (w : World) :
    Prop where
  left : WalkLeft S c n False F v w
  erased : ∀ s, r = .ok s → InData n c s ∧ BlankSector S s w

/-- The erase at the end of a compaction. -/
theorem WalkEnd.compactErase (hs : InData n c s) (h : WalkEnd S c n False F v st bad w)
    (hmoved : Moved st s (st.items s)) : ∃ w', (compactErase s (.ok ())).run w = (.ok (), w') ∧
      Compacted S c n F v (.ok s) ((allocMapMarkUnknown s).run w').2 := by
  obtain ⟨w1, herase, hstored, hsame, hblank⟩ := h.holds.stored.erase hs fun hactive => by
    rw [h.idle] at hactive
    cases hactive
  have hnone : ∀ k, st.head k ≠ some s := by
    intro k hk
    obtain ⟨e, he, hfor⟩ := h.holds.tidy.held k s hk
    obtain ⟨hlive, rfl⟩ := Item.liveFor_iff.mp hfor
    exact hmoved e he hlive hk
  have h1 : WalkEnd S c n False F v (st.clear s) (fun t => bad t ∧ t ≠ s) w1 :=
    ⟨h.holds.clear hnone hstored hsame.openFiles, hsame.files.trans h.files, hsame.gcMd ▸ h.idle⟩
  refine ⟨w1, herase, ((inferInstance : Keeps (WalkEnd S c n False F v _ _) (allocMapMarkUnknown s)).keeps w1
    h1).left, fun t ht => ?_⟩
  cases ht
  refine ⟨hs, fun a ha => ?_⟩
  have hin := (inferInstance : Keeps (Inside S 0 0 0 w1) (allocMapMarkUnknown s)).keeps w1 .refl
  rw [hin.bytes _ (Nat.lt_or_ge _ _)]
  exact hblank a ha

/-- `gc_compact_root_only_sector` on any sector keeps the files. -/
theorem gcCompactRootOnlySector_run {relaxed : Bool} (h : WalkEnd S c n False F v st bad w) :
    Compacted S c n F v ((gcCompactRootOnlySector s relaxed).run w).1
      ((gcCompactRootOnlySector s relaxed).run w).2 := by
  have hstay : ∀ err, Compacted S c n F v (.error err) w := fun err => ⟨h.left, fun _ hno => by cases hno⟩
  rw [gcCompactRootOnlySector, bind_of_ok (run_getFs w)]
  by_cases hs : InData n c s
  · have hp := h.holds.stored.place hs
    obtain ⟨hinit, hreader⟩ := hp.walkInit (SectorReader.shows_new s (S + sectorFooterSize) w)
    rw [bind_of_ok hinit]
    have hloop : ∃ status copied w1 st1 back front, (compactRootLoop s relaxed w.fs.sectorSize { sector := s }
        (.begin w.fs s) 0 0).run w = (.ok (status, copied), w1) ∧ (bad s ∧ status = .ok () ∧ w1 = w ∨
            ¬ bad s ∧ CopyEnd S c n F v s bad st1 front back status copied w1) := by
      by_cases hbad : bad s
      · obtain ⟨-, hcond⟩ := h.holds.stored.condemned s hs hbad
        obtain ⟨es, w0, hf, hdead, ht⟩ := hcond.records
        have hbegin : MdWalk.begin w.fs s = .begin w0.fs s := by
          rw [MdWalk.begin, MdWalk.begin, ht.sectorSize]
        rw [hbegin] at hreader ⊢
        exact ⟨.ok (), 0, w, st, [], [], compactRootLoop_condemned hf hdead ht hf.recorded.before hreader
          fun _ he => he, .inl ⟨hbad, rfl, rfl⟩⟩
      · have hf := h.holds.stored.filed s hs hbad
        have hlen := hf.recorded.length_lt
        rw [List.length_map] at hlen
        obtain ⟨status, copied, w1, st1, front, back, hrun, hend⟩ := @compactRootLoop_run
          _ _ _ _ _ _ _ _ _ _ _ relaxed w.fs.sectorSize _ 0 _ [] _ hs hbad h rfl (fun e he => by cases he)
          hf.recorded.before hreader rfl le_rfl (by rw [hp.sectorSize]; exact hlen)
        exact ⟨status, copied, w1, st1, back, front, hrun, .inr ⟨hbad, hend⟩⟩
    obtain ⟨status, copied, w1, st1, back, front, hrun, hcases⟩ := hloop
    rw [bind_of_ok hrun]
    dsimp only
    rcases hcases with ⟨hbad, hok, rfl⟩ | ⟨hgood, hend⟩
    · subst hok
      have hmoved : Moved st s (st.items s) := by
        rw [(h.holds.stored.condemned s hs hbad).1]
        exact fun e he => by cases he
      obtain ⟨w2, herase, hcompacted⟩ := h.compactErase hs hmoved
      rw [bind_of_ok (by rw [run_attempt, herase])]
      exact hcompacted
    · cases status with
      | ok u =>
        have hmoved : Moved st1 s (st1.items s) := by
          rw [hend.items, hend.ended rfl, List.append_nil]
          exact hend.moved
        obtain ⟨w2, herase, hcompacted⟩ := hend.walkEnd.compactErase hs hmoved
        rw [bind_of_ok (by rw [run_attempt, herase])]
        exact hcompacted
      | error err =>
        have hthrow : (Fastffs.compactErase s (.error err)).run w1 = (.error err, w1) := rfl
        rw [bind_of_ok (by rw [run_attempt, hthrow])]
        dsimp only
        by_cases hzero : copied ≠ 0
        · rw [when_pos hzero]
          have hf := hend.walkEnd.holds.stored.filed s hs hgood
          have hp1 := hend.walkEnd.holds.stored.place hs
          have hmoved : Moved st1 s ((st1.items s).take (copied - 0)) := by
            rw [hend.items, Nat.sub_zero, List.take_append_of_le_length hend.copied]
            exact fun e he => hend.moved e (List.mem_of_mem_take he)
          obtain ⟨hinit1, hreader1⟩ := hp1.walkInit (SectorReader.shows_new s (S + sectorFooterSize) w1)
          obtain ⟨st2, h2⟩ := @tombstoneCopiedLoop_kept _ _ _ _ _ _ _ _ _ _ _ copied w1.fs.sectorSize 0 _ [] _
            hs hgood hend.walkEnd rfl hmoved hf.recorded.before hreader1
          have hrun2 : (gcTombstoneCopiedRoots s copied).run w1 = (tombstoneCopiedLoop s copied w1.fs.sectorSize
              { sector := s } (.begin w1.fs s) 0).run w1 := by
            rw [gcTombstoneCopiedRoots, bind_of_ok (run_getFs w1), bind_of_ok hinit1]
          rw [← hrun2] at h2
          refine run_bind_cases (J := fun r w' => Compacted S c n F v r w') (fun err' w2 hrun' => ?_)
            fun u w2 hrun' => ?_
          · rw [hrun'] at h2
            exact ⟨h2.left, fun _ hno => by cases hno⟩
          · rw [hrun'] at h2
            exact ⟨h2.left, fun _ hno => by cases hno⟩
        · rw [when_neg hzero]
          exact ⟨hend.walkEnd.left, fun _ hno => by cases hno⟩
  · have hinit : (mdWalkInit { sector := s } s).run w = (.error .invalid, w) := by
      have hinvalid : validDataSector w.fs s = false :=
        Bool.eq_false_iff.mpr fun hvalid => hs (h.holds.stored.valid.mp hvalid)
      rw [mdWalkInit, bind_of_ok (run_getFs w), if_pos (.inr hinvalid)]
      rfl
    rw [bind_of_error hinit]
    exact hstay _

instance (cand : CompactionCandidate) : Keeps (WalkEnd S c n x F v st bad) (gcFsinfoAllowsCompaction cand) := by
  refine WalkEnd.keeps (fun w => ?_) fun w => ?_
  · unfold gcFsinfoAllowsCompaction; infer_instance
  · unfold gcFsinfoAllowsCompaction; infer_instance

/-- The compaction of one candidate after the other. -/
theorem compactCandidatesLoop_run {relaxed : Bool} {cands : List CompactionCandidate}
    (h : WalkLeft S c n False F v w) : Compacted S c n F v ((compactCandidatesLoop relaxed cands).run w).1
      ((compactCandidatesLoop relaxed cands).run w).2 := by
  induction cands generalizing w with
  | nil => exact ⟨h, fun _ hno => by cases hno⟩
  | cons cand rest ih =>
    obtain ⟨⟨st, bad, hholds⟩, hfiles, hidle⟩ := h
    have hend : WalkEnd S c n False F v st bad w := ⟨hholds, hfiles, hidle⟩
    rw [compactCandidatesLoop]
    split
    · exact ⟨hend.left, fun _ hno => by cases hno⟩
    · have hallowed := (inferInstance : Keeps (WalkEnd S c n False F v st bad)
        (gcFsinfoAllowsCompaction cand)).keeps w hend
      refine run_bind_cases (J := fun r w' => Compacted S c n F v r w') (fun err w1 hrun => ?_)
        fun allowed w1 hrun => ?_
      · rw [hrun] at hallowed
        exact ⟨hallowed.left, fun _ hno => by cases hno⟩
      · rw [hrun] at hallowed
        cases allowed with
        | false => exact ih hallowed.left
        | true =>
          have hcompact := @gcCompactRootOnlySector_run _ _ _ _ cand.sector _ _ _ _ _ relaxed hallowed
          generalize hres : (gcCompactRootOnlySector cand.sector relaxed).run w1 = res at hcompact
          obtain ⟨res, w2⟩ := res
          rw [if_pos rfl, bind_of_ok (by rw [run_attempt, hres])]
          dsimp only
          split
          · exact hcompact
          · exact ih hcompact.left
          · exact ⟨hcompact.left, fun _ hno => by cases hno⟩

theorem gcCompactUntilErased_run {relaxed : Bool} (h : WalkLeft S c n False F v w) :
    Compacted S c n F v ((gcCompactUntilErased relaxed).run w).1 ((gcCompactUntilErased relaxed).run w).2 := by
  rw [gcCompactUntilErased, bind_of_ok (run_getFs w)]
  exact compactCandidatesLoop_run h

theorem Kept.weaken (h : Kept S c n x F w) : Kept S c n False F w := by
  obtain ⟨st, bad, h⟩ := h
  exact ⟨st, bad, { h with exact := fun hno => hno.elim, idle := h.idle }⟩

/-- What `fffs_gc_until_erased` leaves. -/
structure UntilErased (S c n : Nat) (F : Nat → Option SmallFile) (v : World) (r : Except Status Nat) (w : World) :
    Prop where
  kept : Kept S c n False F w
  files : w.files = v.files
  erased : ∀ s, r = .ok s → InData n c s ∧ BlankSector S s w
  idle : r = .error .noSpace → w.fs.gcMd.active = false

theorem Compacted.until {r : Except Status Nat} (h : Compacted S c n F v r w) : UntilErased S c n F v r w :=
  ⟨h.left.1, h.left.2.1, h.erased, fun _ => h.left.2.2⟩

/-- `fffs_gc_until_erased` keeps the files, and the sector it returns is blank. -/
theorem gcUntilErased_run (h : Kept S c n False F w) :
    UntilErased S c n F w (gcUntilErased.run w).1 (gcUntilErased.run w).2 := by
  have hkept := h
  obtain ⟨st, bad, h⟩ := h
  rw [gcUntilErased, bind_of_ok (run_getFs w)]
  split
  · next hle =>
    rw [h.stored.sectorCount, h.stored.indexSectors] at hle
    refine ⟨hkept, rfl, fun _ hno => (by cases hno), fun _ => ?_⟩
    rw [← Bool.not_eq_true]
    intro hactive
    have hdata := (h.stored.walk hactive).data
    exact absurd (hdata.1.trans_lt hdata.2) (Nat.not_lt.mpr hle)
  next hlt =>
  rw [h.stored.sectorCount, h.stored.indexSectors, not_le] at hlt
  have hpass : ∀ {w1 : World} {useMap : Bool} {k : Option Nat → M Nat}, Kept S c n False F w1 → w1.files = w.files →
      (∀ s, k (some s) = pure s) → (∀ w2, WalkLeft S c n False F w w2 →
        UntilErased S c n F w ((k none).run w2).1 ((k none).run w2).2) →
      UntilErased S c n F w ((gcPass useMap >>= k).run w1).1 ((gcPass useMap >>= k).run w1).2 := by
    intro w1 useMap k hw1 hfiles hsome hnone
    have hpassed := @gcPass_run _ _ _ _ _ _ _ useMap hlt hw1
    refine run_bind_cases (J := fun r w' => UntilErased S c n F w r w') (fun err w2 hrun => ?_) fun found w2 hrun => ?_
    · rw [hrun] at hpassed
      refine ⟨hpassed.collected.1, hpassed.collected.2.trans hfiles, fun _ hno => (by cases hno), fun hfull => ?_⟩
      cases hfull
      exact hpassed.idle (.inr rfl)
    · rw [hrun] at hpassed
      cases found with
      | some s =>
        rw [hsome]
        refine ⟨hpassed.collected.1, hpassed.collected.2.trans hfiles, fun t ht => ?_, fun hno => by cases hno⟩
        cases ht
        exact hpassed.erased s rfl
      | none =>
        exact hnone w2 ⟨hpassed.collected.1, hpassed.collected.2.trans hfiles, hpassed.idle (.inl rfl)⟩
  refine hpass hkept rfl (fun _ => rfl) fun w2 h2 => ?_
  dsimp only
  split
  · exact (gcCompactUntilErased_run h2).until
  · exact hpass h2.1 h2.2.1 (fun _ => rfl) fun w3 h3 => (gcCompactUntilErased_run h3).until

end Fastffs
