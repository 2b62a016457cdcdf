import Fastffs.Store

/-!
# The collector keeps the store

A collection step looks at one record, condemns a sector or erases one.  In a store it never
takes a file away: the sectors it frees hold no current root, and a root that it tombstones is
the copy of another one.

`Kept` is what every step keeps, whatever it returns.  A step that reports an erased sector
leaves that sector blank.
-/

namespace Fastffs

open Prog
open Nor (Byte Mem blank)

/-- The sector is blank. -/
def BlankSector (S s : Nat) (w : World) : Prop := ∀ a, a < S → Nor.get w.dev.mem (s * S + a) = blank

section Steps

variable [Opts] {S c n s : Nat} {x : Prop} {F : Nat → Option SmallFile}
  {st st' : Shelves Nat Nat Entry} {bad : Nat → Prop}
  {w w' : World} {e : Entry}

/-! ## What a sector holds -/

theorem Shelved.pos (h : Shelved S c n st bad w) : 0 < n := by
  obtain ⟨logs, hlogs, -⟩ := h.index
  have hlt := hlogs.placed.oldest_lt
  rw [h.indexSectors] at hlt
  exact Nat.zero_lt_of_lt hlt

/-- A blank sector holds nothing, and it is not condemned. -/
theorem Shelved.of_blank (h : Shelved S c n st bad w) (hs : InData n c s) (hblank : BlankSector S s w) :
    ¬ bad s ∧ st.items s = [] := by
  have hp := h.place hs
  have hS := hp.size_ge
  have hfooter : Nor.read w.dev.mem (s * S + (S - sectorFooterSize)) sectorFooterSize =
      List.replicate sectorFooterSize blank := by
    refine List.ext_getElem (by rw [Nor.length_read, List.length_replicate]) fun i hi hi' => ?_
    rw [Nor.length_read] at hi
    rw [Nor.getElem_read, List.getElem_replicate, Nat.add_assoc]
    exact hblank _ (by simp only [sectorFooterSize] at *; omega)
  have hgood : ¬ bad s := by
    intro hbad
    have herased := (h.condemned s hs hbad).2.footer.erased
    rw [hfooter] at herased
    exact absurd herased (by decide)
  refine ⟨hgood, ?_⟩
  obtain ⟨footer, reader, hread, -, hcases⟩ := (h.filed s hs hgood).recorded.readFooter SectorReader.enter_new
  rcases hcases with ⟨hnil, -⟩ | ⟨-, herased, -⟩
  · exact List.map_eq_nil_iff.mp hnil
  · obtain ⟨reader', hseen, -⟩ := hp.readFooter SectorReader.enter_new
    rw [hseen, hfooter] at hread
    cases hread
    exact absurd herased (by decide)

/-- What the collector finds in the footer of a sector. -/
theorem Shelved.verdict (h : Shelved S c n st bad w) (hs : InData n c s) :
    ∃ footer reader, (readSectorFooter { sector := s } s).run w = (.ok (footer, reader), w) ∧
      reader.Shows s (S + sectorFooterSize) w ∧
      ((∃ v, (gcFooterVerdict s footer).run w = (.ok v, w) ∧ v ≠ some false ∧ st.items s = [] ∧
          (v = none → BlankSector S s w)) ∨
        (gcFooterVerdict s footer).run w = (.ok (some false), w) ∧ ¬ bad s ∧ st.items s ≠ []) := by
  have hp := h.place hs
  obtain ⟨reader, hseen, hreader⟩ := hp.readFooter SectorReader.enter_self
  by_cases hbad : bad s
  · obtain ⟨hnil, hcond⟩ := h.condemned s hs hbad
    have hfooter := hcond.footer
    refine ⟨_, reader, hseen, hreader, .inl ⟨some true, ?_, by decide, hnil, fun hno => by cases hno⟩⟩
    rw [gcFooterVerdict, bind_of_ok (run_getFs w), if_neg (by rw [hfooter.erased]; decide)]
    rw [if_pos]
    · rfl
    · exact .inr (.inr (.inr (.inr (.inr hfooter.tombstone))))
  · have hf := h.filed s hs hbad
    obtain ⟨footer, reader', hread, hreader', hcases⟩ := hf.recorded.readFooter SectorReader.enter_self
    refine ⟨footer, reader', hread, hreader', ?_⟩
    rw [gcFooterVerdict, bind_of_ok (run_getFs w)]
    rcases hcases with ⟨hnil, herased⟩ | ⟨hne, herased, htype, hmagic, hlive⟩
    · have hitems : st.items s = [] := List.map_eq_nil_iff.mp hnil
      have hblank : BlankSector S s w := by
        intro a ha
        rw [hitems] at hf
        by_cases hlow : a < S - sectorFooterSize
        · exact hf.recorded.gap a (Nat.zero_le a) hlow
        · rcases hf.recorded.footer with ⟨-, hfooter⟩ | ⟨hne, -⟩
          · exact hfooter a (Nat.le_of_not_lt hlow) ha
          · exact absurd rfl hne
      have hspan := @flashSpanIsErased_blank (s * w.fs.sectorSize) w.fs.sectorSize w h.plan
        (by rw [hp.sectorSize, ← Nat.succ_mul]; exact hp.inside) fun a hle hlt => by
          rw [hp.sectorSize] at hle hlt
          rw [← Nat.add_sub_cancel' hle]
          exact hblank _ (by omega)
      refine .inl ⟨none, ?_, by decide, hitems, fun _ => hblank⟩
      rw [if_pos herased]
      exact bind_of_ok (a := Except.ok ()) (by rw [run_attempt, hspan])
    · refine .inr ⟨?_, hbad, fun hitems => hne (by rw [hitems]; rfl)⟩
      obtain ⟨hvalid, htomb⟩ := SectorFooter.isLive_iff.mp hlive
      have hstate : footer.state ≠ blank := by
        intro hblank
        rw [hseen] at hread
        cases hread
        change lifecycleValidPair (decodeSectorFooter _).state = .cleared at hvalid
        rw [hblank] at hvalid
        exact absurd hvalid (by decide)
      rw [if_neg (by rw [herased]; decide), if_neg (by simp [htype, hmagic, hvalid, htomb, hstate]),
        if_neg (by rw [hlive]; decide)]
      rfl

/-! ## A sector that is freed -/

/-- An erase takes everything from a sector. -/
theorem Stored.erase (h : Stored S c n st bad w) (hs : InData n c s)
    (hwalk : w.fs.gcMd.active = true → st.items s = []) :
    ∃ w', (eraseDataSector s).run w = (.ok (), w') ∧ Stored S c n (st.clear s) (fun t => bad t ∧ t ≠ s) w' ∧
      SameWork w w' ∧ BlankSector S s w' := by
  obtain ⟨w', hrun, hin, hf⟩ := eraseDataSector_run (h.place hs)
  have hwork := (inferInstance : Keeps (SameWork w) (eraseDataSector s)).keeps w .refl
  rw [hrun] at hwork
  refine ⟨w', hrun, ⟨h.sector hin le_rfl hs (fun t hne => and_iff_left hne) (fun _ => hf)
    fun hb => absurd rfl hb.2, ?_⟩, hwork, fun a ha => ?_⟩
  · intro hactive
    rw [hin.walk_eq] at hactive ⊢
    obtain ⟨hdata, hgood, hsplit⟩ := h.walk hactive
    refine ⟨hdata, fun hb => hgood hb.1, ?_⟩
    change ∃ _ _, Function.update st.items s [] w.fs.gcMd.sector = _ ∧ _
    rw [← hwalk hactive, Function.update_eq_self]
    exact hsplit
  · by_cases hlow : a < S - sectorFooterSize
    · exact hf.recorded.gap a (Nat.zero_le a) hlow
    · rcases hf.recorded.footer with ⟨-, hfooter⟩ | ⟨hne, -⟩
      · exact hfooter a (Nat.le_of_not_lt hlow) ha
      · exact absurd rfl hne

omit [Opts] in
theorem clear_of_nil (hnil : st.items s = []) : st.clear s = st := by
  rw [Shelves.clear, ← hnil, Function.update_eq_self]

/-- A sector with nothing live in it can be condemned. -/
theorem Stored.condemn (h : Stored S c n st bad w) (hs : InData n c s) (hgood : ¬ bad s) (hne : st.items s ≠ [])
    (hdead : ∀ e ∈ st.items s, e.md.live = false) (hidle : w.fs.gcMd.active = false) :
    ∃ w', (tombstoneSector s).run w = (.ok (), w') ∧ Stored S c n (st.clear s) (fun t => bad t ∨ t = s) w' ∧
      SameWork w w' := by
  obtain ⟨w', hrun, hin, hcond⟩ := (h.filed s hs hgood).condemn hne hdead
  have hwork := (inferInstance : Keeps (SameWork w) (tombstoneSector s)).keeps w .refl
  rw [hrun] at hwork
  refine ⟨w', hrun, ?_, hwork⟩
  refine ⟨h.sector hin le_rfl hs (fun t ht => or_iff_left ht) (fun hb => absurd (.inr rfl) hb)
    fun _ => ⟨rfl, hcond⟩, fun hactive => ?_⟩
  rw [hwork.gcMd, hidle] at hactive
  cases hactive

omit [Opts] in
/-- No chain ends in a sector without a live root. -/
theorem head_ne_of_dead (ht : st.Tidy)
    (hdead : ∀ e ∈ st.items s, e.md.live = false) (k : Nat) : st.head k ≠ some s := by
  intro hk
  obtain ⟨e, he, hfor⟩ := ht.held k s hk
  have hlive : e.md.live = true := (Item.liveFor_iff.mp hfor).1
  rw [hdead e he] at hlive
  cases hlive

/-! ## Whether a record is live -/

/-- The chain of a slot reaches the sector of its root, and no other. -/
theorem Shelved.reaches (h : Shelved S c n st bad w) (ht : st.Tidy) {k p : Nat} (hk : st.head k = some p) :
    (sectorIsReachableFromChain k p s).run w = (.ok (decide (p = s)), w) := by
  obtain ⟨hp, hgood, -⟩ := h.head_data ht hk
  obtain ⟨e, hfind, -⟩ := ht.find hk
  have hwhole := (h.filed p hp hgood).whole e (List.mem_of_find?_eq_some hfind)
  have hp0 : p ≠ 0 := Nat.ne_of_gt (h.pos.trans_le hp.1)
  have hlt := hp.2
  rw [sectorIsReachableFromChain, bind_of_ok (run_getFs w), h.sectorCount]
  obtain ⟨d, rfl⟩ : ∃ d, c = d + 1 := ⟨c - 1, by omega⟩
  rw [reachableLoop, if_neg hp0, bind_of_ok (run_getFs w),
    bind_of_ok ((h.readMd hp hgood k).trans (by rw [hfind]; rfl)), hwhole.span, hwhole.next, h.sectorCount,
    if_neg (by omega)]
  by_cases hps : p = s
  · rw [if_pos (by omega), decide_eq_true hps]
    rfl
  · rw [if_neg (by omega), decide_eq_false hps]
    cases d with
    | zero => rfl
    | succ d => rfl

/-- Whether the collector takes an entry of the sector for live. -/
def current (st : Shelves Nat Nat Entry) (s : Nat) (e : Entry) : Bool :=
  e.md.live && decide (st.head e.md.slot = some s)

/-- The shelves after the collector has looked at an entry: a copy of a current root is tombstoned. -/
def classified (st : Shelves Nat Nat Entry) (s : Nat) (e : Entry) : Shelves Nat Nat Entry :=
  if e.md.live && !current st s e then st.retire s e.md.slot else st

/-- The collector takes an entry for live when it is the current root of its slot. -/
theorem Shelved.classify (h : Shelved S c n st bad w) (ht : st.Tidy) (hidle : w.fs.openFiles = [])
    (he : e ∈ st.items s) : ∃ w', (gcClassifyRecord s e.md).run w = (.ok (current st s e), w') ∧
      Shelved S c n (classified st s e) bad w' ∧ SameWork w w' := by
  have hs : InData n c s := by
    by_contra hs
    rw [h.outside s hs] at he
    cases he
  have hgood : ¬ bad s := by
    intro hbad
    rw [(h.condemned s hs hbad).1] at he
    cases he
  rw [gcClassifyRecord, current, classified, current]
  cases hlive : e.md.live with
  | false => exact ⟨w, congrFun (congrArg Prog.run (if_pos rfl)) w, h, .refl⟩
  | true =>
    obtain ⟨p, hhead⟩ := ht.head_of_live he hlive
    change st.head e.md.slot = some p at hhead
    have hslot := ((h.filed s hs hgood).whole e he).slot.1
    have hpinned : slotIsPinned w e.md.slot = false := by rw [slotIsPinned, hidle]; rfl
    have heq : (decide (some p = some s)) = decide (p = s) := decide_eq_decide.mpr (Option.some_inj)
    rw [if_neg (by decide), bind_of_ok (run_get w), hpinned, if_neg (by decide),
      bind_of_ok (h.headForSlot hslot), hhead, heq]
    change ∃ w', ((sectorIsReachableFromChain e.md.slot p s) >>= _).run w = _ ∧ _
    rw [bind_of_ok (h.reaches ht hhead)]
    by_cases hps : p = s
    · rw [decide_eq_true hps]
      exact ⟨w, rfl, h, .refl⟩
    · rw [decide_eq_false hps]
      obtain ⟨accounted, w', hrun, hshelved, hsame⟩ := h.tombstone hs hgood e.md.slot false
      refine ⟨w', ?_, hshelved, hsame⟩
      rw [if_neg (by decide), bind_of_ok hrun]
      rfl

theorem Holds.classified (h : Holds S c n x F st bad w) (hw : Stored S c n (classified st s e) bad w')
    (hidle : w'.fs.openFiles = w.fs.openFiles) : Holds S c n x F (classified st s e) bad w' := by
  rw [Fastffs.classified] at *
  split at hw
  · next hold =>
    have hne : st.head e.md.slot ≠ some s := by
      intro heq
      rw [current, decide_eq_true heq, Bool.and_true, Bool.and_not_self] at hold
      cases hold
    rw [if_pos hold]
    exact ⟨hidle.trans h.idle, hw, h.tidy.retire hne, fun hx => (h.exact hx).retire,
      (Shelves.get_retire hne).trans h.get⟩
  · next hold =>
    rw [if_neg hold]
    exact ⟨hidle.trans h.idle, hw, h.tidy, h.exact, h.get⟩

/-! ## The end of a walk -/

theorem Holds.kept (h : Holds S c n x F st bad w) : Kept S c n x F w := ⟨st, bad, h⟩

theorem Holds.setFs (h : Holds S c n x F st bad w) {fs : Fs} (hfs : indexFs fs = indexFs w.fs)
    (hopen : fs.openFiles = w.fs.openFiles) (hidle : fs.gcMd.active = false) :
    Holds S c n x F st bad { w with fs := fs } := by
  refine { h with idle := hopen.trans h.idle, stored := h.stored.setFs hfs fun hactive => ?_ }
  rw [hidle] at hactive
  cases hactive

/-- A program that changes no byte and nothing of the collector. -/
theorem Holds.keeps {α : Type} {y : M α} (h : Holds S c n x F st bad w) [hin : Keeps (Inside S 0 0 0 w) y]
    [hwork : Keeps (SameWork w) y] : Holds S c n x F st bad (y.run w).2 ∧ SameWork w (y.run w).2 := by
  obtain ⟨hstored, hsame⟩ := h.stored.keeps (x := y)
  exact ⟨{ h with idle := hsame.openFiles.trans h.idle, stored := hstored }, hsame⟩

/-- A sector with nothing current in it is cleared. -/
theorem Holds.clear {bad' : Nat → Prop} (h : Holds S c n x F st bad w) (hnone : ∀ k, st.head k ≠ some s)
    (hw : Stored S c n (st.clear s) bad' w') (hidle : w'.fs.openFiles = w.fs.openFiles) :
    Holds S c n x F (st.clear s) bad' w' where
  idle := hidle.trans h.idle
  stored := hw
  tidy := h.tidy.clear hnone
  exact hx := (h.exact hx).clear
  get := (Shelves.get_clear hnone).trans h.get

/-- What holds from the end of a walk to the end of the step. -/
structure WalkEnd (S c n : Nat) (x : Prop) (F : Nat → Option SmallFile) (v : World) (st : Shelves Nat Nat Entry)
    (bad : Nat → Prop) (w : World) : Prop where
  holds : Holds S c n x F st bad w
  files : w.files = v.files
  idle : w.fs.gcMd.active = false

section WalkEnd

variable {v : World}

theorem WalkEnd.setFs {fs : Fs} (h : WalkEnd S c n x F v st bad w) (hfs : indexFs fs = indexFs w.fs)
    (hopen : fs.openFiles = w.fs.openFiles) (hidle : fs.gcMd.active = false) :
    WalkEnd S c n x F v st bad { w with fs := fs } :=
  ⟨h.holds.setFs hfs hopen hidle, h.files, hidle⟩

/-- A program that changes no byte and nothing of the collector. -/
theorem WalkEnd.keeps {α : Type} {y : M α} (hin : ∀ w, Keeps (Inside S 0 0 0 w) y)
    (hwork : ∀ w, Keeps (SameWork w) y) : Keeps (WalkEnd S c n x F v st bad) y := by
  constructor
  intro w h
  obtain ⟨hholds, hsame⟩ := @Holds.keeps _ _ _ _ _ _ _ _ _ _ _ h.holds (hin w) (hwork w)
  exact ⟨hholds, hsame.files.trans h.files, hsame.gcMd ▸ h.idle⟩

instance : ReadInv (WalkEnd S c n x F v st bad) where
  ofRead {w} h := by
    have hread : Inside S 0 0 0 w { w with dev := w.dev.advance } := ReadInv.ofRead .refl
    exact ⟨{ h.holds with stored := h.holds.stored.quiet hread }, h.files, h.idle⟩

instance (sector : Nat) : Keeps (WalkEnd S c n x F v st bad) (allocMapMarkUsed sector) :=
  WalkEnd.keeps (fun _ => inferInstance) fun _ => inferInstance

instance (sector : Nat) : Keeps (WalkEnd S c n x F v st bad) (allocMapMarkUnknown sector) :=
  WalkEnd.keeps (fun _ => inferInstance) fun _ => inferInstance

instance (t free : Nat) : Keeps (WalkEnd S c n x F v st bad) (modifyFs (gcUpdateCompactionCandidate t free)) := by
  constructor
  intro w h
  rw [run_modifyFs, gcUpdateCompactionCandidate]
  dsimp only
  split
  · exact h.setFs rfl rfl h.idle
  · exact h

instance (g : Fs → Nat) : Keeps (WalkEnd S c n x F v st bad) (modifyFs fun fs =>
    { fs with gcCursor := g fs, gcMd := { fs.gcMd with active := false } }) :=
  ⟨fun _ h => h.setFs rfl rfl rfl⟩

instance (seen : Bool) : Keeps (WalkEnd S c n x F v st bad) (modifyFs fun fs =>
    { fs with gcMd := { fs.gcMd with liveSeen := seen } }) :=
  ⟨fun _ h => h.setFs rfl rfl h.idle⟩

instance : Keeps (WalkEnd S c n x F v st bad) gcEndWalk := ⟨fun _ h => h.setFs rfl rfl rfl⟩

instance (t : Nat) (result : MdWalkResult) : Keeps (WalkEnd S c n x F v st bad) (gcFinishLive t result) := by
  unfold gcFinishLive; infer_instance

/-- What the end of a walk leaves. -/
def WalkLeft (S c n : Nat) (x : Prop) (F : Nat → Option SmallFile) (v w : World) : Prop :=
  Kept S c n x F w ∧ w.files = v.files ∧ w.fs.gcMd.active = false

theorem WalkEnd.left (h : WalkEnd S c n x F v st bad w) : WalkLeft S c n x F v w := ⟨h.holds.kept, h.files, h.idle⟩

theorem WalkEnd.tombstone (h : WalkEnd S c n x F v st bad w) (hs : InData n c s) (hgood : ¬ bad s)
    (hne : st.items s ≠ []) (hdead : ∀ e ∈ st.items s, e.md.live = false) :
    WalkLeft S c n x F v ((gcTombstone s).run w).2 := by
  obtain ⟨w1, hrun, hstored, hsame⟩ := h.holds.stored.condemn hs hgood hne hdead h.idle
  have h1 : WalkEnd S c n x F v (st.clear s) (fun t => bad t ∨ t = s) w1 := {
    holds := h.holds.clear (head_ne_of_dead h.holds.tidy hdead) hstored hsame.openFiles
    files := hsame.files.trans h.files
    idle := hsame.gcMd ▸ h.idle }
  rw [gcTombstone, bind_of_ok hrun]
  exact ((inferInstance : Keeps (WalkEnd S c n x F v _ _) (do
    allocMapMarkUnknown s
    gcEndWalk
    pure GcAction.tombstoned)).keeps w1 h1).left

/-- The end of the walk of a sector. -/
theorem WalkEnd.finish {result : MdWalkResult} (h : WalkEnd S c n x F v st bad w) (hs : InData n c s)
    (hgood : ¬ bad s) (hne : st.items s ≠ [])
    (hdead : w.fs.gcMd.liveSeen = false → ∀ e ∈ st.items s, e.md.live = false) :
    WalkLeft S c n x F v ((gcFinish s result).run w).2 := by
  have hlive : ∀ {w1 : World}, WalkEnd S c n x F v st bad w1 →
      WalkLeft S c n x F v ((gcFinishLive s result).run w1).2 := fun h1 =>
    ((inferInstance : Keeps (WalkEnd S c n x F v st bad) (gcFinishLive s result)).keeps _ h1).left
  rw [gcFinish, bind_of_ok (run_getFs w)]
  cases hseen : w.fs.gcMd.liveSeen with
  | true =>
    rw [when_neg (by simp), bind_of_ok (run_pure ..), bind_of_ok (run_getFs w), if_pos hseen]
    exact hlive h
  | false =>
    refine Keeps.bind_to inferInstance (fun _ w1 h1 => ?_) (fun _ h1 => h1.left) h
    rw [bind_of_ok (run_getFs w1)]
    split
    · exact hlive h1
    · exact h1.tombstone hs hgood hne (hdead hseen)

end WalkEnd

/-! ## The walk of a sector -/

/-- The world with the walk of the collector at `md`. -/
def walking (md : MdWalk) (w : World) : World := { w with fs := { w.fs with gcMd := md } }

section Walk

variable {md : MdWalk}

theorem Holds.walking (h : Holds S c n x F st bad w) (hwalk : md.active = true → GcWalk S n c st bad md) :
    Holds S c n x F st bad (walking md w) :=
  { h with idle := h.idle, stored := h.stored.setFs rfl hwalk }

/-- A walk of the sector is under way after its begin. -/
theorem Stored.walkBegin {reader : SectorReader} (h : Stored S c n st bad w) (hs : InData n c s)
    (hgood : ¬ bad s) (hreader : reader.Shows s (S + sectorFooterSize) w) :
    ∃ md, (gcWalkBegin reader s).run w = (.ok reader, Fastffs.walking md w) ∧ md.active = true ∧
      md.sector = s ∧ GcWalk S n c st bad md := by
  have hp := h.place hs
  rw [gcWalkBegin, bind_of_ok (run_getFs w)]
  by_cases hbegin : w.fs.gcMd.active = false ∨ w.fs.gcMd.sector ≠ s
  · rw [if_pos hbegin, bind_of_ok (hp.walkInit hreader).1]
    have hcursor : (MdWalk.begin w.fs s).cursor = S - sectorFooterSize := by
      rw [MdWalk.begin, hp.sectorSize]
    refine ⟨_, rfl, rfl, rfl, hs, hgood, [], st.items s, rfl, hcursor, rfl, ?_, fun _ e he => by cases he⟩
    have hS := hp.size_ge
    rw [hcursor, sectorFooterSize]
    change 0 < S - 10
    omega
  · rw [if_neg hbegin]
    simp only [not_or, Bool.not_eq_false, not_not] at hbegin
    exact ⟨w.fs.gcMd, rfl, hbegin.1, hbegin.2, h.walk hbegin.1⟩

/-- The entry after the collector has looked at it. -/
def looked (st : Shelves Nat Nat Entry) (s : Nat) (e : Entry) : Entry :=
  if e.md.live && !current st s e then e.kill else e

omit [Opts] in
theorem looked_live : (looked st s e).md.live = current st s e := by
  rw [looked]
  split
  · next hold =>
    rw [Bool.and_eq_true, Bool.not_eq_true'] at hold
    exact hold.2.symm
  · next hold =>
    rw [current] at hold ⊢
    cases hlive : e.md.live with
    | false => rfl
    | true =>
      rw [hlive] at hold
      simpa using hold

omit [Opts] in
theorem looked_place : (looked st s e).md.recordStart = e.md.recordStart ∧
    (looked st s e).md.dataEnd = e.md.dataEnd := by
  rw [looked]
  split <;> exact ⟨rfl, rfl⟩

omit [Opts] in
theorem classified_items {front back : List Entry} (hsingle : Item.Single (st.items s))
    (hitems : st.items s = front ++ e :: back) :
    (classified st s e).items s = front ++ looked st s e :: back := by
  rw [classified, looked]
  split
  · next hold =>
    rw [Bool.and_eq_true] at hold
    rw [Shelves.retire_items, if_pos rfl, hitems]
    refine Item.killFirst_append_cons (fun a ha hlive => ?_) hold.1
    rw [hitems, Item.Single, List.pairwise_append] at hsingle
    exact hsingle.2.2 a ha e List.mem_cons_self hlive hold.1
  · exact hitems

omit [Opts] in
/-- The walk after one more entry of its sector. -/
theorem GcWalk.step {md' : MdWalk} {front back : List Entry} (h : GcWalk S n c st bad md)
    (hitems : st'.items md.sector = front ++ e :: back)
    (hfront : md.liveSeen = false → ∀ e ∈ front, e.md.live = false)
    (hcursor : md'.cursor = e.md.recordStart) (hclaimed : md'.claimedDataEnd = claimedEnd 0 (records (front ++ [e])))
    (hlt : md'.claimedDataEnd < md'.cursor) (hsector : md'.sector = md.sector)
    (hseen : md'.liveSeen = (md.liveSeen || e.md.live)) : GcWalk S n c st' bad md' := by
  refine ⟨hsector ▸ h.data, hsector ▸ h.good, front ++ [e], back, ?_, ?_, hclaimed, hlt, fun hnone a ha => ?_⟩
  · rw [hsector, hitems, List.append_assoc, List.singleton_append]
  · rw [hcursor, records, List.map_append]
    exact lowest_append.symm
  · rw [hseen, Bool.or_eq_false_iff] at hnone
    rcases List.mem_append.mp ha with hmem | hmem
    · exact hfront hnone.1 a hmem
    · rw [List.mem_singleton.mp hmem]
      exact hnone.2

omit [Opts] in
/-- A note of a record changes only what the collector counts. -/
theorem gcNoteRecord_run {r : MdRecord} (live : Bool) :
    ∃ md', (gcNoteRecord r live).run w = (.ok (), walking md' w) ∧ (md'.cursor = w.fs.gcMd.cursor ∧
      md'.claimedDataEnd = w.fs.gcMd.claimedDataEnd ∧ md'.sector = w.fs.gcMd.sector ∧
      md'.active = w.fs.gcMd.active) ∧ md'.liveSeen = (w.fs.gcMd.liveSeen || live) := by
  cases live with
  | false => exact ⟨w.fs.gcMd, rfl, ⟨rfl, rfl, rfl, rfl⟩, (Bool.or_false _).symm⟩
  | true => exact ⟨gcNoteLive r w w.fs.gcMd, rfl, ⟨rfl, rfl, rfl, rfl⟩, (Bool.or_true _).symm⟩

/-- What the collector leaves when it has looked at one more record. -/
structure Walked (S c n : Nat) (x : Prop) (F : Nat → Option SmallFile) (w : World) (r : Except Status GcAction)
    (w' : World) : Prop where
  kept : Kept S c n x F w'
  files : w'.files = w.files
  cursor : (∃ a, r = .ok a) ∧ w'.fs.gcCursor = w.fs.gcCursor ∨ w'.fs.gcMd.active = false

theorem gcWalkSector_run {reader : SectorReader} (h : Holds S c n x F st bad w) (hs : InData n c s)
    (hgood : ¬ bad s) (hne : st.items s ≠ []) (hreader : reader.Shows s (S + sectorFooterSize) w) :
    Walked S c n x F w ((gcWalkSector reader s).run w).1 ((gcWalkSector reader s).run w).2 := by
  obtain ⟨md, hbegin, hactive, hsector, hwalk⟩ := h.stored.walkBegin hs hgood hreader
  have h1 := h.walking fun _ => hwalk
  have hf := h1.stored.filed s hs hgood
  rw [gcWalkSector, bind_of_ok hbegin, bind_of_ok (run_getFs _)]
  change Walked S c n x F w ((attempt (mdWalkNext reader md) >>= _).run _).1
    ((attempt (mdWalkNext reader md) >>= _).run _).2
  subst hsector
  obtain ⟨front, back, hitems, hbefore, hfront, hcursor, hclaimed⟩ := hwalk.before hf hactive
  have hwalking : reader.Shows md.sector (S + sectorFooterSize) (walking md w) :=
    hreader.congr rfl rfl fun _ _ => rfl
  have hsees : reader.Shows md.sector md.cursor (walking md w) :=
    hwalking.mono (hbefore.cursor_le.trans ((Nat.sub_le _ _).trans (Nat.le_add_right _ _)))
  have hdone : ∀ {v : World} {st' : Shelves Nat Nat Entry} {result : MdWalkResult},
      WalkEnd S c n x F w st' bad v → st'.items md.sector ≠ [] →
      (v.fs.gcMd.liveSeen = false → ∀ e ∈ st'.items md.sector, e.md.live = false) →
      Walked S c n x F w ((gcFinish md.sector result).run v).1 ((gcFinish md.sector result).run v).2 := by
    intro v st' result hend hne hdead
    obtain ⟨hkept, hfiles, hinactive⟩ := @WalkEnd.finish _ _ _ _ _ _ _ _ _ _ _ result hend hs hgood hne hdead
    exact ⟨hkept, hfiles, .inr hinactive⟩
  cases back with
  | nil =>
    rw [List.append_nil] at hitems
    obtain ⟨result, reader', hresult, hrun⟩ := mdWalkNext_stops hf.recorded hbefore hactive hsees
    rw [bind_of_ok (by rw [run_attempt, hrun])]
    have hno : result ≠ .endInvalid ∧ result ≠ .record := by
      rcases hresult with rfl | rfl <;> exact ⟨by decide, by decide⟩
    dsimp only
    rw [bind_of_ok (run_modifyFs ..), gcCheckEndInvalid, when_neg fun hinvalid => hno.1 hinvalid.1,
      bind_of_ok (run_pure ..), if_neg hno.2]
    have hend : WalkEnd S c n x F w st bad (walking { md with active := false } w) :=
      ⟨h.walking fun hno => (by cases hno), rfl, rfl⟩
    exact hdone hend hne fun hnone e he => hfront hnone e (hitems ▸ he)
  | cons e back =>
    obtain ⟨reader', hrun, hnext, -⟩ := mdWalkNext_passes hf.recorded hbefore hsees
    rw [bind_of_ok (by rw [run_attempt, hrun])]
    have he : e ∈ st.items md.sector := hitems ▸ List.mem_append_right _ List.mem_cons_self
    dsimp only
    rw [bind_of_ok (run_modifyFs ..), gcCheckEndInvalid, when_neg (fun hinvalid => by cases hinvalid.1),
      bind_of_ok (run_pure ..), if_pos rfl]
    obtain ⟨w2, hclass, hshelved, hsame⟩ := (@Shelved.ofSame _ _ _ _ _ _ _ (walking (md.pass e.md) w)
      h.stored.toShelved fun _ => .ofFs rfl).classify h.tidy h.idle he
    change Walked S c n x F w ((attempt (gcClassifyRecord md.sector e.md) >>= _).run (walking (md.pass e.md) w)).1
      ((attempt (gcClassifyRecord md.sector e.md) >>= _).run (walking (md.pass e.md) w)).2
    rw [bind_of_ok (by rw [run_attempt, hclass])]
    dsimp only
    have hitems2 := classified_items (h.tidy.single md.sector) hitems
    have hmd : w2.fs.gcMd = md.pass e.md := hsame.gcMd
    obtain ⟨md', hnote, ⟨hcursor', hclaimed', hsector', hactive'⟩, hseen⟩ :=
      gcNoteRecord_run (w := w2) (r := e.md) (current st md.sector e)
    rw [hmd] at hcursor' hclaimed' hsector' hactive' hseen
    rw [bind_of_ok hnote]
    have hshelved3 : Shelved S c n (classified st md.sector e) bad (walking md' w2) :=
      hshelved.ofSame fun _ => .ofFs rfl
    split
    · next hon =>
      have hlt : md'.claimedDataEnd < md'.cursor := by
        rw [hclaimed', hcursor']
        exact hnext.room hon
      have hstep : GcWalk S n c (classified st md.sector e) bad md' := by
        refine hwalk.step hitems2 hfront (hcursor'.trans looked_place.1.symm) ?_ hlt hsector' ?_
        · rw [hclaimed', records, List.map_append]
          refine Eq.trans ?_ claimedEnd_append.symm
          rw [← hclaimed, looked_place.2]
          rfl
        · rw [hseen, looked_live]
          rfl
      exact ⟨(h.classified ⟨hshelved3, fun _ => hstep⟩ hsame.openFiles).kept, hsame.files,
        .inl ⟨⟨_, rfl⟩, hsame.gcCursor⟩⟩
    · next hoff =>
      have hback : back = [] := by
        by_contra hback
        exact hoff (hnext.active fun hnil => hback (List.map_eq_nil_iff.mp hnil))
      subst hback
      have hidle : (walking md' w2).fs.gcMd.active = false := by
        change md'.active = false
        rw [hactive', Bool.eq_false_iff]
        exact hoff
      refine hdone ⟨h.classified ⟨hshelved3, fun hno => ?_⟩ hsame.openFiles, hsame.files, hidle⟩ ?_
        fun hnone a ha => ?_
      · rw [hidle] at hno
        cases hno
      · rw [hitems2]
        exact List.append_ne_nil_of_right_ne_nil _ (List.cons_ne_nil _ _)
      · change md'.liveSeen = false at hnone
        rw [hseen, Bool.or_eq_false_iff] at hnone
        rw [hitems2] at ha
        rcases List.mem_append.mp ha with hmem | hmem
        · exact hfront hnone.1 a hmem
        · rw [List.mem_singleton.mp hmem, looked_live]
          exact hnone.2

end Walk

/-! ## One step -/

/-- A step that walks neither erases the sector nor does nothing. -/
def GcAction.Walks (a : GcAction) : Prop := a ≠ .erased ∧ a ≠ .idle

omit [Opts] in
theorem keeps_true {α : Type} (x : M α) : Keeps (fun _ => True) x := ⟨fun _ _ => trivial⟩

theorem gcFinish_yields {result : MdWalkResult} : Yields (fun _ => True) (gcFinish s result) GcAction.Walks := by
  have htrue : ∀ {α : Type} (x : M α), Yields (fun _ => True) x fun _ => True :=
    fun x => .ofKeeps (h := keeps_true x)
  have hlive : Yields (fun _ => True) (gcFinishLive s result) GcAction.Walks := by
    rw [gcFinishLive]
    exact (htrue _).bind fun _ _ => (htrue _).bind fun _ _ => (htrue _).bind fun _ _ =>
      (htrue _).bind fun _ _ => (htrue _).bind fun _ _ => .pure ⟨by decide, by decide⟩
  have htomb : Yields (fun _ => True) (gcTombstone s) GcAction.Walks :=
    (htrue _).bind fun _ _ => (htrue _).bind fun _ _ => (htrue _).bind fun _ _ => .pure ⟨by decide, by decide⟩
  rw [gcFinish]
  exact (htrue _).bind fun _ _ => (htrue _).bind fun _ _ => (htrue _).bind fun _ _ =>
    .ite (fun _ => hlive) fun _ => htomb

theorem gcWalkSector_yields {reader : SectorReader} :
    Yields (fun _ => True) (gcWalkSector reader s) GcAction.Walks := by
  have htrue : ∀ {α : Type} (x : M α), Yields (fun _ => True) x fun _ => True :=
    fun x => .ofKeeps (h := keeps_true x)
  have htomb : Yields (fun _ => True) (gcTombstone s) GcAction.Walks :=
    (htrue _).bind fun _ _ => (htrue _).bind fun _ _ => (htrue _).bind fun _ _ => .pure ⟨by decide, by decide⟩
  rw [gcWalkSector]
  refine (htrue _).bind fun _ _ => (htrue _).bind fun _ _ => (htrue _).bind fun next _ => ?_
  split
  · exact (htrue _).bind fun _ _ => htomb
  · exact (htrue _).bind fun _ _ => .throw _
  · refine (htrue _).bind fun _ _ => (htrue _).bind fun _ _ => .ite (fun _ => ?_) fun _ => gcFinish_yields
    refine (htrue _).bind fun live _ => ?_
    split
    · exact (htrue _).bind fun _ _ => .throw _
    · refine (htrue _).bind fun _ _ => .ite (fun _ => ?_) fun _ => gcFinish_yields
      refine (htrue _).bind fun _ _ => .pure ?_
      split <;> exact ⟨by decide, by decide⟩

/-- What a collection step leaves.  `w` is the world before it. -/
structure Stepped (S c n : Nat) (x : Prop) (F : Nat → Option SmallFile) (w : World)
    (r : Except Status (GcAction × Bool)) (w' : World) : Prop where
  kept : Kept S c n x F w'
  files : w'.files = w.files
  erased : ∀ skip, r = .ok (.erased, skip) → InData n c (normalizedDataCursor w.fs w.fs.gcCursor) ∧
    BlankSector S (normalizedDataCursor w.fs w.fs.gcCursor) w'
  cursor : (∃ a, r = .ok a) ∧
      normalizedDataCursor w'.fs w'.fs.gcCursor = normalizedDataCursor w.fs w.fs.gcCursor ∨
    w'.fs.gcMd.active = false
  idle : ∀ skip, r = .ok (.idle, skip) → ¬ n < c

theorem Kept.cursor_eq {v : World} {y : Prop} {G : Nat → Option SmallFile} (h : Kept S c n x F v)
    (h' : Kept S c n y G w) : normalizedDataCursor v.fs s = normalizedDataCursor w.fs s := by
  obtain ⟨_, _, hv⟩ := h
  obtain ⟨_, _, hw⟩ := h'
  rw [normalizedDataCursor, normalizedDataCursor, validDataSector, validDataSector, hv.stored.indexSectors,
    hv.stored.sectorCount, hw.stored.indexSectors, hw.stored.sectorCount]

/-- The end of a step that leaves the sector. -/
theorem Holds.leave (h : Holds S c n x F st bad w) (s : Nat) (seen : Bool) :
    ∃ w', (gcLeave s seen).run w = (.ok (), w') ∧ Holds S c n x F st bad w' ∧ w'.files = w.files ∧
      w'.dev = w.dev ∧ w'.fs.gcMd.active = false :=
  ⟨_, rfl, h.setFs rfl rfl rfl, rfl, rfl, rfl⟩

/-- The end of a step that frees its sector. -/
theorem Holds.freed (h : Holds S c n x F st bad w) (hblank : BlankSector S s w) :
    ∃ w', (do
        allocMapMarkUnknown s
        gcLeave s false
        pure (GcAction.erased, false)).run w = (.ok (.erased, false), w') ∧
      Kept S c n x F w' ∧ w'.files = w.files ∧ BlankSector S s w' ∧ w'.fs.gcMd.active = false := by
  have hin := (inferInstance : Keeps (Inside S 0 0 0 w) (allocMapMarkUnknown s)).keeps w .refl
  have hmark : (allocMapMarkUnknown s).run w = (.ok (), ((allocMapMarkUnknown s).run w).2) := rfl
  obtain ⟨h1, hsame⟩ := h.keeps (y := allocMapMarkUnknown s)
  obtain ⟨w2, hleave, h2, hfiles, hdev, hidle⟩ := h1.leave s false
  rw [bind_of_ok hmark, bind_of_ok hleave]
  refine ⟨w2, rfl, h2.kept, hfiles.trans hsame.files, fun a ha => ?_, hidle⟩
  rw [hdev, hin.bytes _ (Nat.lt_or_ge _ _)]
  exact hblank a ha

omit [Opts] in
theorem dead_of_nil (hnil : st.items s = []) : ∀ e ∈ st.items s, e.md.live = false := by
  intro e he
  rw [hnil] at he
  cases he

/-- A collection step keeps the files. -/
theorem gcStep_run (useMap : Bool) (h : Kept S c n x F w) :
    Stepped S c n x F w ((gcStep useMap).run w).1 ((gcStep useMap).run w).2 := by
  have hkept := h
  obtain ⟨st, bad, h⟩ := h
  have hstored := h.stored
  rw [gcStep, bind_of_ok (run_getFs w)]
  split
  · next hle =>
    rw [hstored.sectorCount, hstored.indexSectors] at hle
    exact ⟨hkept, rfl, fun _ hno => (by cases hno), .inl ⟨⟨_, rfl⟩, rfl⟩, fun _ _ => Nat.not_lt.mpr hle⟩
  · next hlt =>
    rw [hstored.sectorCount, hstored.indexSectors, not_le] at hlt
    have hs : InData n c (normalizedDataCursor w.fs w.fs.gcCursor) :=
      inData_cursor ⟨hstored.indexSectors, hstored.sectorSize, hstored.sectorCount, (hstored.place
        (s := n) ⟨le_rfl, hlt⟩).size_ge⟩ hlt
    obtain ⟨md, hwhen, h1⟩ : ∃ md, (Prog.when (normalizedDataCursor w.fs w.fs.gcCursor ≠ w.fs.gcCursor)
        (modifyFs fun fs => { fs with gcMd := { fs.gcMd with liveSeen := false, active := false } })).run w =
          (.ok (), walking md w) ∧ Holds S c n x F st bad (walking md w) := by
      by_cases hne : normalizedDataCursor w.fs w.fs.gcCursor ≠ w.fs.gcCursor
      · rw [when_pos hne]
        exact ⟨_, rfl, h.walking fun hno => by cases hno⟩
      · rw [when_neg hne]
        exact ⟨w.fs.gcMd, rfl, h⟩
    generalize hcursor : normalizedDataCursor w.fs w.fs.gcCursor = s at *
    rw [bind_of_ok hwhen, bind_of_ok (run_get _)]
    split
    · obtain ⟨w2, hleave, h2, hfiles, -, hidle⟩ := h1.leave s false
      rw [bind_of_ok hleave]
      exact ⟨h2.kept, hfiles, fun _ hno => (by cases hno), .inr hidle, fun _ hno => by cases hno⟩
    · rw [if_neg (by rw [sectorIsOpenForWriting, h1.idle]; exact Bool.false_ne_true)]
      obtain ⟨footer, reader, hfooter, hreader, hcases⟩ := h1.stored.verdict hs
      rw [bind_of_ok hfooter]
      dsimp only
      have hfreed : ∀ {v : World} {bad' : Nat → Prop}, Holds S c n x F st bad' v → BlankSector S s v →
          v.files = w.files → Stepped S c n x F w ((do
            allocMapMarkUnknown s
            gcLeave s false
            pure (GcAction.erased, false)).run v).1 ((do
            allocMapMarkUnknown s
            gcLeave s false
            pure (GcAction.erased, false)).run v).2 := by
        intro v bad' hv hblank hfiles
        obtain ⟨w', hrun, hkept, hfiles', hblank', hidle⟩ := hv.freed hblank
        rw [hrun]
        exact ⟨hkept, hfiles'.trans hfiles, fun _ _ => hcursor ▸ ⟨hs, hblank'⟩, .inr hidle, fun _ hno => by cases hno⟩
      rcases hcases with ⟨v, hv, hvne, hnil, hblank⟩ | ⟨hv, hgood, hne⟩
      · rw [bind_of_ok hv]
        match v with
        | none => exact hfreed h1 (hblank rfl) rfl
        | some true =>
          obtain ⟨w2, herase, hstored2, hsame2, hblank2⟩ := h1.stored.erase hs fun _ => hnil
          have h2 := h1.clear (head_ne_of_dead h.tidy (dead_of_nil hnil)) hstored2 hsame2.openFiles
          rw [clear_of_nil hnil] at h2
          dsimp only
          rw [bind_of_ok herase]
          exact hfreed h2 hblank2 hsame2.files
        | some false => exact absurd rfl hvne
      · rw [bind_of_ok hv]
        have hwalked := gcWalkSector_run h1 hs hgood hne hreader
        refine run_bind_cases (J := fun r w' => Stepped S c n x F w r w') (fun e w2 hrun => ?_) fun a w2 hrun => ?_
        · rw [hrun] at hwalked
          refine ⟨hwalked.kept, hwalked.files, fun _ hno => (by cases hno), .inr ?_, fun _ hno => by cases hno⟩
          rcases hwalked.cursor with ⟨⟨a, hno⟩, -⟩ | hidle
          · cases hno
          · exact hidle
        · have hact := gcWalkSector_yields.value (walking md w) a trivial (congrArg Prod.fst hrun)
          rw [hrun] at hwalked
          refine ⟨hwalked.kept, hwalked.files, fun _ hno => ?_, ?_, fun _ hno => ?_⟩
          · cases hno
            exact absurd rfl hact.1
          · refine hwalked.cursor.imp_left fun hstay => ⟨⟨_, rfl⟩, ?_⟩
            change normalizedDataCursor w2.fs w2.fs.gcCursor = _
            rw [hstay.2, hwalked.kept.cursor_eq hkept]
            rfl
          · cases hno
            exact absurd rfl hact.2

/-! ## Runs of steps -/

/-- The files and the handles are kept. -/
def Collected (S c n : Nat) (x : Prop) (F : Nat → Option SmallFile) (v w : World) : Prop :=
  Kept S c n x F w ∧ w.files = v.files

section Runs

variable {v : World}

instance (useMap : Bool) : Keeps (Collected S c n x F v) (gcStep useMap) :=
  ⟨fun _ h => ⟨(gcStep_run useMap h.1).kept, (gcStep_run useMap h.1).files.trans h.2⟩⟩

instance (k : Nat) : Keeps (Collected S c n x F v) (gcStepLoop k) := by
  induction k with
  | zero => unfold gcStepLoop; infer_instance
  | succ k ih => unfold gcStepLoop; infer_instance

instance : Keeps (Collected S c n x F v) gcStepPublic := by
  unfold gcStepPublic; infer_instance

instance (k erased : Nat) : Keeps (Collected S c n x F v) (gc k erased) := by
  induction k generalizing erased with
  | zero => unfold gc; infer_instance
  | succ k ih => unfold gc; infer_instance

/-- What a pass over the sectors leaves. -/
structure Passed (S c n : Nat) (x : Prop) (F : Nat → Option SmallFile) (v : World)
    (r : Except Status (Option Nat)) (w : World) : Prop where
  collected : Collected S c n x F v w
  erased : ∀ s, r = .ok (some s) → InData n c s ∧ BlankSector S s w
  idle : r = .ok none ∨ r = .error .noSpace → w.fs.gcMd.active = false

/-- A pass ends at a blank sector, or it has looked at every sector and the walk is over. -/
theorem gcPassLoop_run {useMap : Bool} {dataSectors fuel advanced : Nat} (hlt : n < c)
    (h : Collected S c n x F v w) (hadv : advanced < dataSectors ∨ w.fs.gcMd.active = false) :
    Passed S c n x F v ((gcPassLoop useMap dataSectors fuel advanced).run w).1
      ((gcPassLoop useMap dataSectors fuel advanced).run w).2 := by
  induction fuel generalizing w advanced with
  | zero =>
    rw [gcPassLoop]
    exact ⟨h, fun s hno => (by cases hno), fun hno => by rcases hno with hno | hno <;> cases hno⟩
  | succ fuel ih =>
    rw [gcPassLoop]
    split
    · next hmore =>
      rw [bind_of_ok (run_getFs w)]
      have hstep := gcStep_run useMap h.1
      refine run_bind_cases (fun e w1 hrun => ?_) fun a w1 hrun => ?_
      · rw [hrun] at hstep
        refine ⟨⟨hstep.kept, hstep.files.trans h.2⟩, fun s hno => (by cases hno), fun _ => ?_⟩
        rcases hstep.cursor with ⟨⟨a, hno⟩, -⟩ | hidle
        · cases hno
        · exact hidle
      · rw [hrun] at hstep
        have h1 : Collected S c n x F v w1 := ⟨hstep.kept, hstep.files.trans h.2⟩
        obtain ⟨action, skip⟩ := a
        dsimp only
        split
        · next herased =>
          subst herased
          refine ⟨h1, fun s hs => ?_, fun hno => by rcases hno with hno | hno <;> cases hno⟩
          cases hs
          exact hstep.erased skip rfl
        · rw [bind_of_ok (run_getFs w1)]
          split
          · next hmoved =>
            exact ih h1 (.inr (hstep.cursor.resolve_left fun hstay => hmoved hstay.2))
          · split
            · next hidle =>
              subst hidle
              exact absurd hlt (hstep.idle skip rfl)
            · exact ih h1 (.inl hmore)
    · next hend =>
      exact ⟨h, fun s hno => (by cases hno), fun _ => hadv.resolve_left hend⟩

/-- A pass with fresh candidates. -/
theorem gcPass_run {useMap : Bool} (hlt : n < c) (h : Kept S c n x F w) :
    Passed S c n x F w ((gcPass useMap).run w).1 ((gcPass useMap).run w).2 := by
  obtain ⟨st, bad, h⟩ := h
  rw [gcPass, bind_of_ok (run_getFs w), bind_of_ok (run_modifyFs ..)]
  refine gcPassLoop_run hlt ⟨⟨st, bad, { h with idle := h.idle, stored := ?_ }⟩, rfl⟩ (.inl ?_)
  · exact h.stored.setFs rfl fun hactive => h.stored.walk hactive
  · rw [h.stored.sectorCount, h.stored.indexSectors]
    omega

end Runs

end Steps

end Fastffs
