import Fastffs.Counted
import Fastffs.FailedRotation

/-!
# Errors of the device during a mount

A mount overwrites the last record of the active index sector when it cannot read the
root of the record's head.  It does not ask why.  So a record that is valid on the flash
is lost when one of the reads of that check is the first to report an error, and it is
kept when none of them is.  The calls of a mount are counted up to that check
(`AtRootCheck`), and `HasWindow` says which of them matter.
-/

namespace Fastffs

open Prog
open Nor (Mem Byte blank)

/-! ## A place of the flash -/

/-- The record at `t` is `r`. -/
def RecordIs (t : Nat) (r : IndexRecord) (w : World) : Prop := recordAt w.dev.mem t = r

section RecordIs

variable {t : Nat} {r : IndexRecord}

instance : CacheInv (RecordIs t r) where
  ofRead h := h
  ofCache h := h

instance (g : Fs → Fs) : Keeps (RecordIs t r) (modifyFs g) := ⟨fun _ h => h⟩

theorem programAligned_keepsRecord {off : Nat} {bs : List Byte} (h : off + bs.length ≤ t ∨ t + 4 ≤ off) :
    Keeps (RecordIs t r) (programAligned off bs) := by
  constructor
  intro w hw
  obtain ⟨m, plan, hm, htorn⟩ := programAligned_tears w off bs
  have hout := htorn.outside
  rw [hm]
  change recordAt m t = r
  rw [recordAt_congr fun i h1 h2 => hout.get i (by omega)]
  exact hw

theorem clobber_keepsRecord {recOff : Nat} {terminal : Bool} (h : recOff + 4 ≤ t ∨ t + 4 ≤ recOff) :
    Keeps (RecordIs t r) (clobberOrRejectActiveTail recOff terminal) := by
  have hprog : Keeps (RecordIs t r) (programAligned recOff [0#8, 0#8, 0#8, 0#8]) :=
    programAligned_keepsRecord h
  unfold clobberOrRejectActiveTail
  infer_instance

theorem reject_keepsRecord {recOff : Nat} : Keeps (RecordIs t r) (clobberOrRejectActiveTail recOff false) := by
  constructor
  intro w hw
  rw [clobberOrRejectActiveTail, bind_of_ok (run_getFs w), if_pos (.inr rfl)]
  exact hw

end RecordIs

/-! ## What the replay reads -/

/-- The fields of the file system that the replay reads and does not change. -/
def replayView (fs : Fs) : Nat × Nat × Nat × Nat × Nat × Bool :=
  (fs.sectorSize, fs.sectorCount, fs.indexSectors, fs.activeIndexSector, fs.scratchSize, fs.strict)

/-- The device and these fields are the same. -/
def SameReplay (v v' : World) : Prop := v'.dev = v.dev ∧ replayView v'.fs = replayView v.fs

theorem SameReplay.refl (v : World) : SameReplay v v := ⟨rfl, rfl⟩

theorem SameReplay.trans {v v' v'' : World} (h : SameReplay v v') (h' : SameReplay v' v'') : SameReplay v v'' :=
  ⟨h'.1.trans h.1, h'.2.trans h.2⟩

/-! ## Runs that come to a program -/

/-- The program makes a number of calls from `v`, and a run that returns ends in `Q`. -/
def CountedTo {α : Type} (x : M α) (v : World) (Q : α → World → Prop) : Prop :=
  ∃ n, CountedAt x v n ∧ ∀ a v', x.run v = (.ok a, v') → Q a v'

/-- The record `r` at `t` is kept, unless the first error of the device is one of the calls
from `K` to `K + L`.  If it is one of these, and the next `G` calls work, then the record is
overwritten. -/
structure Window {α : Type} (t : Nat) (r : IndexRecord) (x : M α) (v : World) (K L G : Nat) : Prop where
  kept : ∀ plan, ¬ (works K plan ∧ ¬ works L (plan.drop K)) → RecordIs t r (x.run (v.withPlan plan)).2
  lost : ∀ plan i, i < L → works (K + i) plan → (plan.getD (K + i) .pass).fails = true →
    works G (plan.drop (K + i + 1)) → RecordIs t ⟨0, 0⟩ (x.run (v.withPlan plan)).2

/-- After `K` calls that work the program comes to the check of the root of `r`, in a world
where the replay reads what it reads in `v0`.  The check makes `L` calls, and overwriting
the record makes `G` calls. -/
def AtRootCheck {α : Type} (v0 : World) (t : Nat) (r : IndexRecord) (x : M α) (v : World) (K L G : Nat) :
    Prop :=
  ∃ v' k, SameReplay v0 v' ∧ CountedAt (readFileRootMd r.head r.slot) v' L ∧
    CountedAt (programAligned t [0#8, 0#8, 0#8, 0#8]) v' G ∧
    ∀ plan, works K plan →
      x.run (v.withPlan plan) = (replayRootIsLive r >>= k).run (v'.withPlan (plan.drop K))

section Rules

variable {α β : Type} {x : M α} {f : α → M β} {v v0 : World} {P : α → World → Prop} {Q : β → World → Prop}
  {t : Nat} {r : IndexRecord} {K L G : Nat}

theorem Counted.to [hx : Counted x] (hplan : v.dev.plan = [])
    (h : ∀ a v', x.run v = (.ok a, v') → P a v') : CountedTo x v P := by
  obtain ⟨n, hn⟩ := hx.counted v hplan
  exact ⟨n, hn, h⟩

theorem CountedTo.bind (hx : CountedTo x v P) (hf : ∀ a v', P a v' → CountedTo (f a) v' Q) :
    CountedTo (x >>= f) v Q := by
  obtain ⟨n, hn, hP⟩ := hx
  rcases hrun : x.run v with ⟨res, v'⟩
  cases res with
  | error e =>
    refine ⟨n, hn.bind_error hrun, fun b v'' h => ?_⟩
    rw [bind_of_error hrun] at h
    cases h
  | ok a =>
    obtain ⟨k, hk, hQ⟩ := hf a v' (hP a v' hrun)
    refine ⟨n + k, hn.bind hrun hk, fun b v'' h => hQ b v'' ?_⟩
    rwa [bind_of_ok hrun] at h

/-- A program that never touches the record. -/
theorem Window.of_keeps (hx : Keeps (RecordIs t r) x) (hv : RecordIs t r v) : Window t r x v 0 0 0 :=
  ⟨fun _ _ => hx.keeps _ hv, fun _ i hi => absurd hi (Nat.not_lt_zero i)⟩

/-- There is a window, and it is the check of the root of `r`. -/
def HasWindow (v0 : World) (t : Nat) (r : IndexRecord) (x : M α) (v : World) : Prop :=
  ∃ K L G, Window t r x v K L G ∧ (L = 0 ∨ AtRootCheck v0 t r x v K L G)

theorem HasWindow.of_keeps (hx : Keeps (RecordIs t r) x) (hv : RecordIs t r v) : HasWindow v0 t r x v :=
  ⟨0, 0, 0, .of_keeps hx hv, .inl rfl⟩

/-- The rule for a program after calls that stop at the first error. -/
theorem HasWindow.after_run (hx : CountedTo x v P) (hkeep : ∀ plan, RecordIs t r (x.run (v.withPlan plan)).2)
    (hplan : v.dev.plan = []) (hf : ∀ a v', P a v' → RecordIs t r v' → HasWindow v0 t r (f a) v') :
    HasWindow v0 t r (x >>= f) v := by
  obtain ⟨n, hn, hP⟩ := hx
  have hstop : ∀ plan, ¬ works n plan → RecordIs t r ((x >>= f).run (v.withPlan plan)).2 := by
    intro plan hno
    obtain ⟨e, he⟩ := hn.stop plan hno
    rw [bind_of_error (Prod.ext he rfl)]
    exact hkeep plan
  have hrec := hkeep []
  rw [World.withPlan_nil hplan] at hrec
  rcases hrun : x.run v with ⟨res, v'⟩
  rw [hrun] at hrec
  cases res with
  | error e =>
    refine ⟨0, 0, 0, ⟨fun plan _ => ?_, fun plan i hi => absurd hi (Nat.not_lt_zero i)⟩, .inl rfl⟩
    by_cases hw : works n plan
    · have h := hn.pass plan hw
      rw [hrun] at h
      rw [bind_of_error h]
      exact hrec
    · exact hstop plan hw
  | ok a =>
    obtain ⟨K, L, G, hwin, hcheck⟩ := hf a v' (hP a v' hrun) hrec
    have hpass : ∀ plan, works n plan →
        (x >>= f).run (v.withPlan plan) = (f a).run (v'.withPlan (plan.drop n)) := by
      intro plan hw
      have h := hn.pass plan hw
      rw [hrun] at h
      exact bind_of_ok h
    refine ⟨n + K, L, G, ⟨fun plan hno => ?_, fun plan i hi hw hfail hG => ?_⟩, hcheck.imp id ?_⟩
    · by_cases hw : works n plan
      · rw [hpass plan hw]
        refine hwin.kept _ ?_
        rw [works_add, ← List.drop_drop] at hno
        exact fun h => hno ⟨⟨hw, h.1⟩, h.2⟩
      · exact hstop plan hw
    · rw [Nat.add_assoc, works_add] at hw
      rw [hpass plan hw.1]
      refine hwin.lost _ i hi hw.2 ?_ ?_
      · rw [getD_drop_plan, ← Nat.add_assoc]
        exact hfail
      · rw [List.drop_drop, show n + (K + i + 1) = n + K + i + 1 by omega]
        exact hG
    · rintro ⟨v'', k, hsame, hL, hG, hreach⟩
      refine ⟨v'', k, hsame, hL, hG, fun plan hw => ?_⟩
      rw [works_add] at hw
      rw [hpass plan hw.1, hreach _ hw.2, List.drop_drop]

theorem HasWindow.after (hx : CountedTo x v P) (hkeep : Keeps (RecordIs t r) x) (hplan : v.dev.plan = [])
    (hv : RecordIs t r v) (hf : ∀ a v', P a v' → RecordIs t r v' → HasWindow v0 t r (f a) v') :
    HasWindow v0 t r (x >>= f) v :=
  .after_run hx (fun _ => hkeep.keeps _ hv) hplan hf

/-- Only the runs of the program matter. -/
theorem HasWindow.of_run {y : M α} (hrun : ∀ plan, x.run (v.withPlan plan) = y.run (v.withPlan plan))
    (h : HasWindow v0 t r y v) : HasWindow v0 t r x v := by
  obtain ⟨K, L, G, hwin, hcheck⟩ := h
  refine ⟨K, L, G, ⟨fun plan hno => ?_, fun plan i h1 h2 h3 h4 => ?_⟩, hcheck.imp id ?_⟩
  · rw [hrun]
    exact hwin.kept plan hno
  · rw [hrun]
    exact hwin.lost plan i h1 h2 h3 h4
  · rintro ⟨v'', k, hsame, hL, hG, hreach⟩
    refine ⟨v'', k, hsame, hL, hG, fun plan hw => ?_⟩
    rw [hrun]
    exact hreach plan hw

theorem HasWindow.getFs {f : Fs → M β} (h : HasWindow v0 t r (f v.fs) v) :
    HasWindow v0 t r (Fastffs.getFs >>= f) v :=
  .of_run (fun plan => bind_of_ok (run_getFs (v.withPlan plan))) h

theorem HasWindow.get {g : World → M β} (hg : ∀ plan, g (v.withPlan plan) = g v)
    (h : HasWindow v0 t r (g v) v) : HasWindow v0 t r (Prog.get >>= g) v :=
  .of_run (fun plan => (bind_of_ok (run_get _)).trans (by rw [hg plan])) h

/-- The rule for a program before others that never touch the record. -/
theorem HasWindow.before (hx : HasWindow v0 t r x v) (hf : ∀ a, Keeps (RecordIs t r) (f a))
    (hf0 : ∀ a, Keeps (RecordIs t ⟨0, 0⟩) (f a)) : HasWindow v0 t r (x >>= f) v := by
  obtain ⟨K, L, G, hwin, hcheck⟩ := hx
  have hbind : ∀ {r'} plan, (∀ a, Keeps (RecordIs t r') (f a)) → RecordIs t r' (x.run (v.withPlan plan)).2 →
      RecordIs t r' ((x >>= f).run (v.withPlan plan)).2 := by
    intro r' plan hk h
    rw [run_bind]
    rcases hrun : x.run (v.withPlan plan) with ⟨res, v'⟩
    rw [hrun] at h
    cases res with
    | error e => exact h
    | ok a => exact (hk a).keeps v' h
  refine ⟨K, L, G, ⟨fun plan h => hbind plan hf (hwin.kept plan h),
    fun plan i h1 h2 h3 h4 => hbind plan hf0 (hwin.lost plan i h1 h2 h3 h4)⟩, hcheck.imp id ?_⟩
  rintro ⟨v'', k, hsame, hL, hG, hreach⟩
  refine ⟨v'', fun b => k b >>= f, hsame, hL, hG, fun plan hw => ?_⟩
  rw [run_bind, hreach plan hw, run_bind, run_bind]
  rcases (replayRootIsLive r).run (v''.withPlan (plan.drop K)) with ⟨res, v1⟩
  cases res with
  | error e => rfl
  | ok b => exact (run_bind (k b) f v1).symm

/-- The check itself never stops. -/
theorem HasWindow.attempt (hx : HasWindow v0 t r x v) : HasWindow v0 t r (Prog.attempt x) v := by
  obtain ⟨K, L, G, hwin, hcheck⟩ := hx
  refine ⟨K, L, G, ⟨hwin.kept, hwin.lost⟩, hcheck.imp id ?_⟩
  rintro ⟨v'', k, hsame, hL, hG, hreach⟩
  refine ⟨v'', fun b => Prog.attempt (k b), hsame, hL, hG, fun plan hw => ?_⟩
  rw [run_attempt, hreach plan hw]
  rfl

end Rules

/-! ## The replay without the check of a root -/

/-- The same, for a device that never fails. -/
def ReplaySame (v0 v : World) : Prop := v0.dev.plan = [] → SameReplay v0 v

instance (v0 : World) : CacheInv (ReplaySame v0) where
  ofRead {w} h hplan := by
    obtain ⟨hdev, hview⟩ := h hplan
    have hw : w.dev.plan = [] := by rw [hdev, hplan]
    exact ⟨(Device.advance_of_plan hw).trans hdev, hview⟩
  ofCache h hplan := h hplan

instance (v0 : World) (off : Nat) :
    Keeps (ReplaySame v0) (modifyFs fun fs => { fs with nextIndexOffset := off }) := ⟨fun _ h => h⟩

variable {α : Type} {v : World}

theorem sameReplay_of_keeps {x : M α} {res : Except Status α} {v' : World} (hplan : v.dev.plan = [])
    [hx : Keeps (ReplaySame v) x] (hrun : x.run v = (res, v')) : SameReplay v v' := by
  have h := hx.keeps v (fun _ => .refl v) hplan
  rwa [hrun] at h

/-- A program that stops at the first error and changes nothing that the replay reads. -/
theorem Counted.toSame {x : M α} [Counted x] [Keeps (ReplaySame v) x] (hplan : v.dev.plan = []) :
    CountedTo x v fun _ v' => SameReplay v v' :=
  Counted.to hplan fun _ _ hrun => sameReplay_of_keeps hplan hrun

theorem CountedTo.mono {x : M α} {P Q : α → World → Prop} (h : CountedTo x v P)
    (hPQ : ∀ a v', P a v' → Q a v') : CountedTo x v Q := by
  obtain ⟨n, hn, hP⟩ := h
  exact ⟨n, hn, fun a v' hrun => hPQ a v' (hP a v' hrun)⟩

theorem CountedTo.throw (e : Status) (Q : α → World → Prop) : CountedTo (Prog.throw e) v Q :=
  ⟨0, .ofPure fun _ => rfl, fun _ _ h => by cases h⟩

theorem CountedTo.pure {a : α} {Q : α → World → Prop} (h : Q a v) : CountedTo (Pure.pure a) v Q :=
  ⟨0, .ofPure fun _ => rfl, fun _ _ hrun => by cases hrun; exact h⟩

theorem CountedTo.getFs {f : Fs → M α} {Q : α → World → Prop} (h : CountedTo (f v.fs) v Q) :
    CountedTo (Fastffs.getFs >>= f) v Q := by
  refine CountedTo.bind (P := fun fs v' => fs = v.fs ∧ v' = v) ⟨0, .ofPure fun _ => rfl, ?_⟩ ?_
  · intro a v' hrun
    cases hrun
    exact ⟨rfl, rfl⟩
  · rintro a v' ⟨rfl, rfl⟩
    exact h

/-- A record that is not to be overwritten is rejected. -/
theorem reject_counted (recOff : Nat) (Q : Unit → World → Prop) :
    CountedTo (clobberOrRejectActiveTail recOff false) v Q := by
  rw [clobberOrRejectActiveTail]
  refine CountedTo.getFs ?_
  rw [if_pos (.inr rfl)]
  exact CountedTo.throw _ _

/-! ## The check of a root -/

theorem recordAt_overwritten (m : Mem) (t : Nat) :
    recordAt (Nor.program m t [0#8, 0#8, 0#8, 0#8]) t = ⟨0, 0⟩ := by
  have hzero : ∀ i, t ≤ i → i < t + 4 → Nor.get (Nor.program m t [0#8, 0#8, 0#8, 0#8]) i = 0#8 := by
    intro i h1 h2
    rw [get_overwritten, if_pos ⟨h1, h2⟩]
  have hslot : (recordAt (Nor.program m t [0#8, 0#8, 0#8, 0#8]) t).slot = 0 := by
    change (Nor.get _ t).toNat + 256 * (Nor.get _ (t + 1)).toNat = 0
    rw [hzero _ (by omega) (by omega), hzero _ (by omega) (by omega)]
    rfl
  have hhead : (recordAt (Nor.program m t [0#8, 0#8, 0#8, 0#8]) t).head = 0 := by
    change (Nor.get _ (t + 1 + 1)).toNat + 256 * (Nor.get _ (t + 1 + 1 + 1)).toNat = 0
    rw [hzero _ (by omega) (by omega), hzero _ (by omega) (by omega)]
    rfl
  rcases hr : recordAt (Nor.program m t [0#8, 0#8, 0#8, 0#8]) t with ⟨slot, head⟩
  rw [hr] at hslot hhead
  cases hslot
  cases hhead
  rfl

section Check

variable {t L i : Nat} {r : IndexRecord} {v0 : World} {plan : List Fault}

theorem replayRootIsLive_works (hplan : v.dev.plan = [])
    (hL : CountedAt (readFileRootMd r.head r.slot) v L) (hroot : rootIsLive v r.slot r.head = true)
    (hw : works L plan) :
    (replayRootIsLive r).run (v.withPlan plan) = (.ok true, v.withPlan (plan.drop L)) := by
  have hpass := hL.pass plan hw
  have hread : ((readFileRootMd r.head r.slot).run v).2 = v := by
    rw [run_of_reads hplan]
  rw [hread] at hpass
  rw [replayRootIsLive, bind_of_ok (run_attempt _ _), hpass, run_pure]
  rw [rootIsLive] at hroot
  rw [hroot]

/-- The check does not tell a read that fails from a root that is not there. -/
theorem replayRootIsLive_fails (hL : CountedAt (readFileRootMd r.head r.slot) v L) (hi : i < L)
    (hw : works i plan) (hfail : (plan.getD i .pass).fails = true) :
    (replayRootIsLive r).run (v.withPlan plan) = (.ok false, v.withPlan (plan.drop (i + 1))) := by
  have hno : ¬ works L plan := by
    intro h
    have hp := h i hi
    rw [Fault.passes_of_fails hfail] at hp
    cases hp
  obtain ⟨e, he⟩ := hL.stop plan hno
  have hleft := hL.fail plan i hi hw hfail
  have honly : OnlyPlan v ((readFileRootMd r.head r.slot).run (v.withPlan plan)).2 :=
    Keeps.keeps _ ⟨plan, rfl⟩
  obtain ⟨q, hq⟩ := honly
  rw [hq] at hleft
  change q = plan.drop (i + 1) at hleft
  rw [replayRootIsLive, bind_of_ok (run_attempt _ _), he, hq, hleft]
  rfl

/-- A record with a live root is lost exactly when a read of its root fails. -/
theorem rootCheck_window {x y : M α} (hplan : v.dev.plan = []) (hsame : SameReplay v0 v)
    (hg : 0 < v.dev.programGranule) (hsize : v.dev.size % v.dev.programGranule = 0) (hle : t + 4 ≤ v.dev.size)
    (hstrict : v.fs.strict = false) (hv : RecordIs t r v) (hroot : rootIsLive v r.slot r.head = true)
    (hx : Keeps (RecordIs t r) x) (hy : Keeps (RecordIs t ⟨0, 0⟩) y) :
    HasWindow v0 t r (do
      let ok ← replayRootIsLive r
      if ok then x else do
        clobberOrRejectActiveTail t true
        y) v := by
  obtain ⟨L, hL⟩ := Counted.counted (x := readFileRootMd r.head r.slot) v hplan
  obtain ⟨G, hG⟩ := Counted.counted (x := programAligned t [0#8, 0#8, 0#8, 0#8]) v hplan
  refine ⟨0, L, G, ⟨fun plan hno => ?_, fun plan i hi hw hfail hrest => ?_⟩,
    .inr ⟨v, _, hsame, hL, hG, fun plan _ => rfl⟩⟩
  · -- Every read of the root works.
    have hw : works L plan := Classical.byContradiction fun h => hno ⟨works_zero, h⟩
    rw [bind_of_ok (replayRootIsLive_works hplan hL hroot hw), if_pos rfl]
    exact hx.keeps _ hv
  · rw [Nat.zero_add] at hw hfail hrest
    have hprog := hG.pass _ hrest
    rw [programAligned_run hplan hg hsize hle] at hprog
    have hclob : ∃ v', (clobberOrRejectActiveTail t true).run (v.withPlan (plan.drop (i + 1))) = (.ok (), v') ∧
        RecordIs t ⟨0, 0⟩ v' := by
      rw [clobberOrRejectActiveTail, bind_of_ok (run_getFs _),
        if_neg (show ¬ ((v.withPlan _).fs.strict = true ∨ true = false) from fun h => by
          cases h with
          | inl h => exact absurd (hstrict.symm.trans h) (by decide)
          | inr h => cases h), bind_of_ok hprog, run_modifyFs]
      exact ⟨_, rfl, recordAt_overwritten _ t⟩
    obtain ⟨v', hrun, hzero⟩ := hclob
    rw [bind_of_ok (replayRootIsLive_fails hL hi hw hfail), if_neg (by simp), bind_of_ok hrun]
    exact hy.keeps _ hzero

end Check

variable [Opts]

/-- A chunk without a last record: the replay hands every error to its caller. -/
theorem replayChunk_counted {m : Mem} {active : Bool} {off nread endOff fuel pos tail : Nat}
    (hplan : v.dev.plan = []) (hmem : v.dev.mem = m) (hn : nread % 4 = 0) (hpos : pos % 4 = 0)
    (hend : off + nread ≤ endOff) (hsize : endOff ≤ m.size) (hmod : (endOff - off) % 4 = 0)
    (hlast : active = true → ∀ q, q + 4 ≤ nread → freeFrom m (off + q + 4) endOff = false) :
    CountedTo (replayChunk active off nread endOff (Nor.read m off nread) fuel pos tail) v
      fun _ v' => SameReplay v v' := by
  induction fuel generalizing v pos tail with
  | zero => exact CountedTo.pure (.refl v)
  | succ fuel ih =>
    rw [replayChunk]
    by_cases hlt : pos < nread
    · rw [if_pos hlt]
      dsimp only
      have hnext : ∀ {v1 : World} {tail}, SameReplay v v1 →
          CountedTo (replayChunk active off nread endOff (Nor.read m off nread) fuel (pos + 4) tail) v1
            fun _ v' => SameReplay v v' := by
        intro v1 tail hsame
        refine (ih (by rw [hsame.1]; exact hplan) (by rw [hsame.1]; exact hmem) (by omega)).mono ?_
        exact fun _ _ h => hsame.trans h
      have hterminal : CountedTo (if active = true then
          activeIndexRecordIsTerminal (off + pos) (Nor.read m off nread) pos nread endOff
          else Pure.pure false) v fun b v' => b = false ∧ SameReplay v v' := by
        by_cases ha : active = true
        · rw [if_pos ha]
          refine Counted.to hplan fun b v' hrun => ?_
          subst hmem
          rw [activeIndexRecordIsTerminal_run hplan (by omega) hend hsize (by omega),
            hlast ha pos (by omega)] at hrun
          cases hrun
          exact ⟨rfl, .refl v⟩
        · rw [if_neg ha]
          exact CountedTo.pure ⟨rfl, .refl v⟩
      split
      · exact (Counted.toSame hplan).bind fun _ v1 h => CountedTo.pure h
      · split
        · exact (Counted.toSame hplan).bind fun _ v1 h => hnext h
        · refine hterminal.bind ?_
          rintro b v1 ⟨rfl, h1⟩
          have hplan1 : v1.dev.plan = [] := by rw [h1.1]; exact hplan
          refine CountedTo.getFs ?_
          split
          · exact (reject_counted _ fun _ _ => False).bind fun _ _ h => h.elim
          · split
            · exact (Counted.toSame hplan1).bind fun _ v2 h2 => hnext (h1.trans h2)
            · split
              · exact (reject_counted _ fun _ _ => False).bind fun _ _ h => h.elim
              · rw [if_neg (by simp)]
                refine (CountedTo.pure (Q := fun b v' => b = true ∧ v' = v1) ⟨rfl, rfl⟩).bind ?_
                rintro b v2 ⟨rfl, rfl⟩
                rw [if_pos rfl]
                exact (Counted.toSame hplan1).bind fun _ v3 h3 => hnext (h1.trans h3)
    · rw [if_neg hlt]
      exact CountedTo.pure (.refl v)

/-! ## The replay of other records -/

section Other

variable {t : Nat} {r : IndexRecord}

omit [Opts] in
theorem keeps_pure_bind {β : Type} {I : World → Prop} {a : α} {f : α → M β} (h : Keeps I (f a)) :
    Keeps I (Pure.pure a >>= f) := ⟨fun w hw => h.keeps w hw⟩

/-- The replay of a chunk overwrites no record before it and none after it, and in a sector
that is not active none at all. -/
theorem replayChunk_keepsRecord {active : Bool} {off nread endOff fuel pos tail : Nat} {chunk : List Byte}
    (hn : nread % 4 = 0) (hpos : pos % 4 = 0)
    (h : active = true → t + 4 ≤ off + pos ∨ off + nread ≤ t) :
    Keeps (RecordIs t r) (replayChunk active off nread endOff chunk fuel pos tail) := by
  induction fuel generalizing pos tail with
  | zero => unfold replayChunk; infer_instance
  | succ fuel ih =>
    rw [replayChunk]
    by_cases hlt : pos < nread
    · rw [if_pos hlt]
      dsimp only
      have hnext : ∀ tail, Keeps (RecordIs t r) (replayChunk active off nread endOff chunk fuel (pos + 4) tail) :=
        fun tail => ih (by omega) fun ha => (h ha).imp (by omega) id
      cases active with
      | true =>
        have hclob : ∀ b, Keeps (RecordIs t r) (clobberOrRejectActiveTail (off + pos) b) := fun b =>
          clobber_keepsRecord ((h rfl).elim (fun h => .inr h) fun h => .inl (by omega))
        infer_instance
      | false =>
        have hclob : Keeps (RecordIs t r) (clobberOrRejectActiveTail (off + pos) false) := reject_keepsRecord
        split
        · infer_instance
        · split
          · infer_instance
          · rw [if_neg (by simp)]
            refine keeps_pure_bind ?_
            infer_instance
    · rw [if_neg hlt]
      infer_instance

theorem replaySector_keepsRecord {active : Bool} {endOff chunkSize fuel off tail : Nat}
    (hmod : (endOff - off) % 4 = 0) (h : active = true → t + 4 ≤ off ∨ endOff ≤ t) :
    Keeps (RecordIs t r) (replaySector active endOff chunkSize fuel off tail) := by
  induction fuel generalizing off tail with
  | zero => unfold replaySector; infer_instance
  | succ fuel ih =>
    rw [replaySector]
    by_cases hle : off + 4 ≤ endOff
    · rw [if_pos hle]
      dsimp only
      generalize hk : min (endOff - off) chunkSize - min (endOff - off) chunkSize % 4 = nread
      have hn : nread % 4 = 0 ∧ off + nread ≤ endOff := by omega
      have hchunk : ∀ chunk, Keeps (RecordIs t r) (replayChunk active off nread endOff chunk nread 0 tail) :=
        fun chunk => replayChunk_keepsRecord hn.1 rfl fun ha => (h ha).imp (by omega) (by omega)
      have hnext : ∀ tail, Keeps (RecordIs t r) (replaySector active endOff chunkSize fuel (off + nread) tail) :=
        fun tail => ih (by omega) fun ha => (h ha).imp (by omega) id
      infer_instance
    · rw [if_neg hle]
      infer_instance

omit [Opts] in
instance (sector : Nat) : Keeps (RecordIs t r) (recoverSectorSerial sector) := by
  unfold recoverSectorSerial
  refine Keeps.bind (k := fun fs => Keeps.bind (k := fun res => ?_))
  split <;> infer_instance

omit [Opts] in
instance (n sector : Nat) : Keeps (RecordIs t r) (recoverAllocatorLoop n sector) := by
  induction n generalizing sector with
  | zero => unfold recoverAllocatorLoop; infer_instance
  | succ n ih => unfold recoverAllocatorLoop; infer_instance

omit [Opts] in
instance (head : Nat) : Keeps (RecordIs t r) (recoverAllocatorHint head) := by
  unfold recoverAllocatorHint; infer_instance

end Other

/-! ## The replay of the record -/

section Replay

variable {t : Nat} {r : IndexRecord} {v0 : World}

/-- The record at `t` is valid, and a mount may overwrite it. -/
structure ValidAt (v0 : World) (t : Nat) (r : IndexRecord) : Prop where
  plan : v0.dev.plan = []
  granule : 0 < v0.dev.programGranule
  aligned : v0.dev.size % v0.dev.programGranule = 0
  strict : v0.fs.strict = false
  record : RecordIs t r v0
  valid : r.meaningless v0 = false

omit [Opts] in
theorem SameReplay.sameData (h : SameReplay v0 v) (hplan : v0.dev.plan = []) : SameData v0 v := by
  obtain ⟨hdev, hview⟩ := h
  simp only [replayView, Prod.mk.injEq] at hview
  obtain ⟨h1, h2, h3, -⟩ := hview
  refine ⟨hplan, ?_, ?_, h1, h2, h3, fun a _ => ?_⟩
  · rw [hdev, hplan]
  · rw [hdev]
  · rw [hdev]

omit [Opts] in
theorem ValidAt.same (h : ValidAt v0 t r) (hsame : SameReplay v0 v) : ValidAt v t r where
  plan := by rw [hsame.1]; exact h.plan
  granule := by rw [hsame.1]; exact h.granule
  aligned := by rw [hsame.1]; exact h.aligned
  strict := by
    have hview := hsame.2
    simp only [replayView, Prod.mk.injEq] at hview
    rw [hview.2.2.2.2.2]
    exact h.strict
  record := by
    have hrec : recordAt v0.dev.mem t = r := h.record
    rw [RecordIs, hsame.1]
    exact hrec
  valid := by
    rw [IndexRecord.meaningless_congr (hsame.sameData h.plan)]
    exact h.valid

omit [Opts] in
/-- The tests of the replay on a valid record. -/
theorem ValidAt.fields (h : ValidAt v0 t r) : r.erased = false ∧ r.clobbered = false ∧
    ¬ (r.slot = 0 ∨ r.slot = uint16Max ∨ r.head = uint16Max) ∧
    (r.head ≠ 0 → ¬ (r.head < v0.fs.indexSectors ∨ r.head ≥ v0.fs.sectorCount) ∧
      rootIsLive v0 r.slot r.head = true) := by
  have hvalid := h.valid
  rw [IndexRecord.meaningless, Bool.or_eq_false_iff] at hvalid
  obtain ⟨hmal, hroot⟩ := hvalid
  have hno : ¬ r.malformed v0.fs = true := by rw [hmal]; decide
  rw [IndexRecord.malformed_iff, not_or] at hno
  obtain ⟨hslot, hhead⟩ := hno
  refine ⟨?_, ?_, hslot, fun hne => ⟨fun hout => hhead ⟨hne, hout⟩, ?_⟩⟩
  · rw [IndexRecord.erased, Bool.and_eq_false_iff]
    exact .inl (beq_eq_false_iff_ne.mpr fun he => hslot (.inr (.inl he)))
  · rw [IndexRecord.clobbered, Bool.and_eq_false_iff]
    exact .inl (beq_eq_false_iff_ne.mpr fun he => hslot (.inl he))
  · simpa [hne] using hroot

omit [Opts] in
/-- No place before a valid record is the last one. -/
theorem ValidAt.not_free (h : ValidAt v0 t r) {a e : Nat} (ha : a ≤ t) (he : t + 4 ≤ e) :
    freeFrom v0.dev.mem a e = false := by
  have hrec : recordAt v0.dev.mem t = r := h.record
  have hno : freeFrom v0.dev.mem t (t + 4) ≠ true := by
    rw [Ne, ← recordAt_erased_iff, hrec, h.fields.1]
    decide
  rw [Bool.eq_false_iff]
  intro hfree
  rw [freeFrom_split ha (show t ≤ e by omega), Bool.and_eq_true,
    freeFrom_split (show t ≤ t + 4 by omega) he, Bool.and_eq_true] at hfree
  exact hno hfree.2.1

/-- The replay of a chunk of the active sector that holds the record. -/
theorem replayChunk_window {off nread endOff fuel pos tail : Nat} (h : ValidAt v0 t r) (hsame : SameReplay v0 v)
    (hn : nread % 4 = 0) (hpos : pos % 4 = 0) (hend : off + nread ≤ endOff) (hsize : endOff ≤ v0.dev.size)
    (hmod : (endOff - off) % 4 = 0) (hge : off + pos ≤ t) (hlt : t + 4 ≤ off + nread) (ht : (t - off) % 4 = 0) :
    HasWindow v0 t r (replayChunk true off nread endOff (Nor.read v0.dev.mem off nread) fuel pos tail) v := by
  induction fuel generalizing v pos tail with
  | zero =>
    refine .of_keeps ?_ (h.same hsame).record
    unfold replayChunk
    infer_instance
  | succ fuel ih =>
    have hv := h.same hsame
    have hterminal : CountedTo (activeIndexRecordIsTerminal (off + pos) (Nor.read v0.dev.mem off nread) pos
        nread endOff) v fun b v' => b = freeFrom v0.dev.mem (off + pos + 4) endOff ∧ v' = v := by
      refine Counted.to hv.plan fun b v' hrun => ?_
      rw [← hsame.1] at hrun
      rw [activeIndexRecordIsTerminal_run hv.plan (by omega) hend (by rw [hsame.1]; exact hsize) (by omega),
        hsame.1] at hrun
      cases hrun
      exact ⟨rfl, rfl⟩
    rw [replayChunk, if_pos (by omega)]
    dsimp only
    rw [if_pos rfl, indexRecordAt_read (by omega)]
    by_cases heq : off + pos = t
    · -- The record itself.
      have hrest : ∀ r' tail, Keeps (RecordIs t r')
          (replayChunk true off nread endOff (Nor.read v0.dev.mem off nread) fuel (pos + 4) tail) :=
        fun r' tail => replayChunk_keepsRecord hn (by omega) fun _ => .inl (by omega)
      have hrec : recordAt v0.dev.mem (off + pos) = r := by rw [heq]; exact h.record
      obtain ⟨herased, hclob, hslot, hhead⟩ := hv.fields
      rw [hrec, if_neg (by rw [herased]; decide), if_neg (by rw [hclob]; decide)]
      refine HasWindow.after hterminal inferInstance hv.plan hv.record ?_
      rintro b v1 ⟨rfl, rfl⟩ -
      refine HasWindow.getFs ?_
      rw [if_neg hslot]
      by_cases h0 : r.head = 0
      · rw [if_pos h0]
        have hk := hrest r tail
        exact .of_keeps inferInstance hv.record
      · obtain ⟨hin, hroot⟩ := hhead h0
        have hk := hrest r r.head
        rw [if_neg h0, if_neg hin]
        by_cases hlast : freeFrom v0.dev.mem (off + pos + 4) endOff = true
        · rw [if_pos hlast, hlast, heq]
          refine rootCheck_window hv.plan hsame hv.granule hv.aligned ?_ hv.strict hv.record hroot inferInstance
            inferInstance
          rw [hsame.1]
          omega
        · rw [if_neg hlast]
          refine .of_keeps (keeps_pure_bind ?_) hv.record
          rw [if_pos rfl]
          infer_instance
    · -- A place before the record.
      have hnext : ∀ {v1 : World} {tail}, SameReplay v v1 → HasWindow v0 t r
          (replayChunk true off nread endOff (Nor.read v0.dev.mem off nread) fuel (pos + 4) tail) v1 :=
        fun h1 => ih (hsame.trans h1) (by omega) (by omega)
      have hreject : ∀ {x : M (Bool × Nat)}, Keeps (RecordIs t r) x →
          Keeps (RecordIs t r) (clobberOrRejectActiveTail (off + pos) false >>= fun _ => x) := by
        intro x hx
        have hk : Keeps (RecordIs t r) (clobberOrRejectActiveTail (off + pos) false) := reject_keepsRecord
        infer_instance
      split
      · exact .of_keeps inferInstance hv.record
      · split
        · exact HasWindow.after (Counted.toSame hv.plan) inferInstance hv.plan hv.record fun _ v1 h1 _ => hnext h1
        · refine HasWindow.after hterminal inferInstance hv.plan hv.record ?_
          rintro b v1 ⟨rfl, rfl⟩ -
          rw [h.not_free (show off + pos + 4 ≤ t by omega) (by omega)]
          refine HasWindow.getFs ?_
          split
          · exact .of_keeps (hreject inferInstance) hv.record
          · split
            · exact HasWindow.after (Counted.toSame hv.plan) inferInstance hv.plan hv.record fun _
                v2 h2 _ => hnext h2
            · split
              · exact .of_keeps (hreject inferInstance) hv.record
              · rw [if_neg (by simp)]
                refine HasWindow.after (P := fun b v' => b = true ∧ v' = v1) (CountedTo.pure ⟨rfl, rfl⟩)
                  inferInstance hv.plan hv.record ?_
                rintro b v2 ⟨rfl, rfl⟩ -
                rw [if_pos rfl]
                exact HasWindow.after (Counted.toSame hv.plan) inferInstance hv.plan hv.record fun
                  _ v3 h3 _ => hnext h3

/-- The replay of the active sector. -/
theorem replaySector_window {endOff chunkSize fuel off tail : Nat} (h : ValidAt v0 t r) (hsame : SameReplay v0 v)
    (hchunk : 4 ≤ chunkSize) (hsize : endOff ≤ v0.dev.size) (hmod : (endOff - off) % 4 = 0) (hge : off ≤ t)
    (hlt : t + 4 ≤ endOff) (ht : (t - off) % 4 = 0) :
    HasWindow v0 t r (replaySector true endOff chunkSize fuel off tail) v := by
  induction fuel generalizing v off tail with
  | zero =>
    refine .of_keeps ?_ (h.same hsame).record
    unfold replaySector
    infer_instance
  | succ fuel ih =>
    have hv := h.same hsame
    rw [replaySector, if_pos (by omega)]
    dsimp only
    generalize hk : min (endOff - off) chunkSize - min (endOff - off) chunkSize % 4 = nread
    have hn : nread % 4 = 0 ∧ off + nread ≤ endOff := by omega
    have hread : CountedTo (flashRead off nread) v fun chunk v' =>
        chunk = Nor.read v0.dev.mem off nread ∧ v' = v := by
      refine Counted.to hv.plan fun chunk v' hrun => ?_
      rw [flashRead_run hv.plan (by rw [hsame.1]; omega), hsame.1] at hrun
      cases hrun
      exact ⟨rfl, rfl⟩
    refine HasWindow.after hread inferInstance hv.plan hv.record ?_
    rintro chunk v1 ⟨rfl, rfl⟩ -
    by_cases hin : t + 4 ≤ off + nread
    · -- The record is in this chunk.
      have hrest : ∀ r' tail, Keeps (RecordIs t r')
        (replaySector true endOff chunkSize fuel (off + nread) tail) :=
        fun _ _ => replaySector_keepsRecord (by omega) fun _ => .inl hin
      refine HasWindow.before (replayChunk_window h hsame hn.1 rfl hn.2 hsize hmod hge hin ht) ?_ ?_
      · rintro ⟨done, tail'⟩
        infer_instance
      · rintro ⟨done, tail'⟩
        infer_instance
    · -- It is in a later one.
      have hfree : ∀ q, q + 4 ≤ nread → freeFrom v0.dev.mem (off + q + 4) endOff = false :=
        fun q hq => h.not_free (by omega) hlt
      refine HasWindow.after (replayChunk_counted hv.plan (by rw [hsame.1]) hn.1 rfl hn.2 hsize hmod
        fun _ => hfree) (replayChunk_keepsRecord hn.1 rfl fun _ => .inr (by omega)) hv.plan hv.record ?_
      rintro ⟨done, tail'⟩ v2 h2 hv2
      dsimp only
      split
      · exact .of_keeps inferInstance hv2
      · have hplan2 := ((h.same (hsame.trans h2))).plan
        refine HasWindow.after (Counted.toSame hplan2) inferInstance hplan2 hv2 fun _ v3 h3 _ => ?_
        exact ih (hsame.trans (h2.trans h3)) (by omega) (by omega) (by omega)

end Replay

/-! ## The replay of the log -/

section Log

variable {t : Nat} {r : IndexRecord} {v0 : World}

omit [Opts] in
/-- A place for a record in an index sector. -/
def RecordPlace (fs : Fs) (t : Nat) : Prop :=
  ∃ sector j, sector < fs.indexSectors ∧ j < recordPlaces fs ∧ t = indexSectorBegin fs sector + 4 * j

/-- A sector that is not active: the replay hands every error to its caller. -/
theorem replaySector_counted {m : Mem} {endOff chunkSize fuel off tail : Nat} (hplan : v.dev.plan = [])
    (hmem : v.dev.mem = m) (hsize : endOff ≤ m.size) (hmod : (endOff - off) % 4 = 0) :
    CountedTo (replaySector false endOff chunkSize fuel off tail) v fun _ v' => SameReplay v v' := by
  induction fuel generalizing v off tail with
  | zero => exact CountedTo.pure (.refl v)
  | succ fuel ih =>
    rw [replaySector]
    by_cases hle : off + 4 ≤ endOff
    · rw [if_pos hle]
      dsimp only
      generalize hk : min (endOff - off) chunkSize - min (endOff - off) chunkSize % 4 = nread
      have hn : nread % 4 = 0 ∧ off + nread ≤ endOff := by omega
      have hread : CountedTo (flashRead off nread) v fun chunk v' =>
          chunk = Nor.read m off nread ∧ v' = v := by
        refine Counted.to hplan fun chunk v' hrun => ?_
        rw [flashRead_run hplan (show off + nread ≤ v.dev.mem.size by rw [hmem]; omega), hmem] at hrun
        cases hrun
        exact ⟨rfl, rfl⟩
      refine hread.bind ?_
      rintro chunk v1 ⟨rfl, rfl⟩
      refine (replayChunk_counted hplan hmem hn.1 rfl hn.2 hsize hmod fun h => by cases h).bind ?_
      rintro ⟨done, tail'⟩ v2 h2
      have hplan2 : v2.dev.plan = [] := by rw [h2.1]; exact hplan
      have hmem2 : v2.dev.mem = m := by rw [h2.1]; exact hmem
      dsimp only
      split
      · exact CountedTo.pure h2
      · refine (Counted.toSame hplan2).bind fun _ v3 h3 => ?_
        have hrest := @ih v3 (off + nread) tail' (by rw [h3.1]; exact hplan2)
          (by rw [h3.1]; exact hmem2) (by omega)
        exact hrest.mono fun _ _ h4 => h2.trans (h3.trans h4)
    · rw [if_neg hle]
      exact CountedTo.pure (.refl v)

omit [Opts] in
/-- A record place of a sector lies between its bounds. -/
theorem RecordPlace.bounds {fs : Fs} (h : RecordPlace fs t) (hsize : 256 ≤ fs.sectorSize)
    (hal : fs.sectorSize % 4 = 0) : ∃ s < fs.indexSectors, s * fs.sectorSize + 8 ≤ t ∧
      t + 4 ≤ (s + 1) * fs.sectorSize ∧ (t - (s * fs.sectorSize + 8)) % 4 = 0 := by
  obtain ⟨s, j, hs, hj, rfl⟩ := h
  rw [recordPlaces, headerSize] at hj
  rw [indexSectorBegin, headerSize]
  refine ⟨s, hs, by omega, ?_, by omega⟩
  rw [Nat.add_mul, Nat.one_mul]
  omega

/-- The active sector, which is the last one. -/
theorem replaySector_active_window {tail : Nat} (h : ValidAt v0 t r) (hfits : LogFits v0)
    (hplace : RecordPlace v0.fs t) (hsame : SameReplay v0 v) {sector : Nat} (hs : sector < v0.fs.indexSectors) :
    HasWindow v0 t r (replaySector true ((sector + 1) * v0.fs.sectorSize) v0.fs.scratchSize v0.fs.sectorSize
      (sector * v0.fs.sectorSize + 8) tail) v := by
  have hge := hfits.size
  have hal := hfits.aligned
  have hend : (sector + 1) * v0.fs.sectorSize ≤ v0.dev.size :=
    le_trans (Nat.mul_le_mul_right _ hs) hfits.fits
  have hexp : (sector + 1) * v0.fs.sectorSize = sector * v0.fs.sectorSize + v0.fs.sectorSize := by
    rw [Nat.add_mul, Nat.one_mul]
  obtain ⟨s, -, hlow, hhigh, hmod⟩ := hplace.bounds hge hal
  obtain hlt | rfl | hgt := Nat.lt_trichotomy s sector
  · have hle : (s + 1) * v0.fs.sectorSize ≤ sector * v0.fs.sectorSize := Nat.mul_le_mul_right _ hlt
    exact .of_keeps (replaySector_keepsRecord (by omega) fun _ => .inl (by omega)) (h.same hsame).record
  · exact replaySector_window h hsame hfits.scratch hend (by omega) hlow hhigh hmod
  · have hle : (sector + 1) * v0.fs.sectorSize ≤ s * v0.fs.sectorSize := Nat.mul_le_mul_right _ hgt
    exact .of_keeps (replaySector_keepsRecord (by omega) fun _ => .inr (by omega)) (h.same hsame).record

theorem replaySectors_window {n sector tail : Nat} (h : ValidAt v0 t r) (hfits : LogFits v0)
    (hplace : RecordPlace v0.fs t) (hsame : SameReplay v0 v) (hs : sector < v0.fs.indexSectors)
    (hlast : activeLast v0.fs n sector) : HasWindow v0 t r (replaySectors (n + 1) sector tail) v := by
  induction n generalizing v sector tail with
  | zero =>
    have hview := hsame.2
    simp only [replayView, Prod.mk.injEq] at hview
    obtain ⟨hsz, -, hidx, hact, hscr, -⟩ := hview
    have hsector : sector = v0.fs.activeIndexSector := hlast
    rw [replaySectors]
    refine HasWindow.getFs ?_
    rw [indexSectorBegin, hsz, hact, hscr, headerSize, ← hsector, beq_self_eq_true]
    refine HasWindow.before (replaySector_active_window h hfits hplace hsame hs) ?_ ?_
    · intro tail'
      unfold replaySectors
      infer_instance
    · intro tail'
      unfold replaySectors
      infer_instance
  | succ n ih =>
    have hv := h.same hsame
    have hview := hsame.2
    simp only [replayView, Prod.mk.injEq] at hview
    obtain ⟨hsz, -, hidx, hact, hscr, -⟩ := hview
    have hge := hfits.size
    have hal := hfits.aligned
    have hend : (sector + 1) * v0.fs.sectorSize ≤ v0.dev.size :=
      le_trans (Nat.mul_le_mul_right _ hs) hfits.fits
    have hexp : (sector + 1) * v0.fs.sectorSize = sector * v0.fs.sectorSize + v0.fs.sectorSize := by
      rw [Nat.add_mul, Nat.one_mul]
    rw [replaySectors]
    refine HasWindow.getFs ?_
    rw [indexSectorBegin, hsz, hact, hscr, hidx, headerSize, beq_eq_false_iff_ne.mpr hlast.1]
    refine HasWindow.after (replaySector_counted hv.plan (by rw [hsame.1]) hend (by omega))
      (replaySector_keepsRecord (by omega) fun h => by cases h) hv.plan hv.record fun tail' v1 h1 _ => ?_
    exact ih (hsame.trans h1) (nextIndexSector_lt hs) hlast.2

/-- `fffs_replay_index`. -/
theorem replayIndex_window (h : ValidAt v0 t r) (hplaced : LogPlaced v0) (hplace : RecordPlace v0.fs t) :
    HasWindow v0 t r replayIndex v0 := by
  have hcount := hplaced.count_pos
  obtain ⟨n, hn⟩ : ∃ n, v0.fs.indexSequenceCount = n + 1 := ⟨v0.fs.indexSequenceCount - 1, by omega⟩
  have hlast := hplaced.last
  rw [hn, Nat.add_sub_cancel] at hlast
  rw [replayIndex]
  have hset : CountedTo (modifyFs fun fs =>
      { fs with nextIndexOffset := indexSectorBegin fs fs.activeIndexSector }) v0
      fun _ v' => v' = v0.withNext (indexSectorBegin v0.fs v0.fs.activeIndexSector) :=
    Counted.to h.plan fun _ v' hrun => by
      cases hrun
      rfl
  refine HasWindow.after hset inferInstance h.plan h.record ?_
  rintro - v1 rfl hv1
  refine HasWindow.getFs ?_
  change HasWindow v0 t r (replaySectors v0.fs.indexSequenceCount v0.fs.oldestIndexSector 0 >>= _) _
  rw [hn]
  refine HasWindow.before
    (replaySectors_window h hplaced.toLogFits hplace ⟨rfl, rfl⟩ hplaced.oldest_lt hlast) ?_ ?_
  · intro tail
    infer_instance
  · intro tail
    infer_instance

end Log

/-! ## Mounting -/

section Mounting

variable {t : Nat} {r : IndexRecord} {w : World} {o : MountOptions} {seq : IndexSequence}

omit [Opts] in
/-- The flag of a sector header is no part of a record. -/
theorem RecordPlace.flag {fs : Fs} (h : RecordPlace fs t) (hsize : 256 ≤ fs.sectorSize)
    (hal : fs.sectorSize % 4 = 0) (sector : Nat) :
    sector * fs.sectorSize + 7 + 1 ≤ t ∨ t + 4 ≤ sector * fs.sectorSize + 7 := by
  obtain ⟨s, -, hlow, hhigh, -⟩ := h.bounds hsize hal
  by_cases hle : sector ≤ s
  · have hmul : sector * fs.sectorSize ≤ s * fs.sectorSize := Nat.mul_le_mul_right _ hle
    exact .inl (by omega)
  · have hmul : (s + 1) * fs.sectorSize ≤ sector * fs.sectorSize := Nat.mul_le_mul_right _ (by omega)
    exact .inr (by omega)

omit [Opts] in
/-- Finishing a compaction keeps every record. -/
theorem indexFinishInterruptedCompaction_keepsRecord (v : World) (hv : RecordIs t r v)
    (hflag : ∀ sector, sector * v.fs.sectorSize + 7 + 1 ≤ t ∨ t + 4 ≤ sector * v.fs.sectorSize + 7) :
    RecordIs t r (indexFinishInterruptedCompaction.run v).2 := by
  rw [indexFinishInterruptedCompaction, bind_of_ok (run_getFs v)]
  split
  · exact hv
  · have hprog : Keeps (RecordIs t r) (programAligned (v.fs.oldestIndexSector * v.fs.sectorSize + 7)
        [indexFlagsValid &&& ~~~0x40#8]) := programAligned_keepsRecord (hflag _)
    have hrec := hprog.keeps v hv
    have htomb : (tombstoneIndexSector v.fs.oldestIndexSector).run v = (programAligned
        (v.fs.oldestIndexSector * v.fs.sectorSize + 7) [indexFlagsValid &&& ~~~0x40#8]).run v :=
      bind_of_ok (run_getFs v)
    rw [indexCompactOldestFinish, run_bind, htomb]
    rcases hrun : (programAligned (v.fs.oldestIndexSector * v.fs.sectorSize + 7)
      [indexFlagsValid &&& ~~~0x40#8]).run v with ⟨res, v1⟩
    rw [hrun] at hrec
    cases res with
    | error e => exact hrec
    | ok a => exact hrec

/-- The part of a mount after the index is found. -/
theorem mountReplay_window (hplan : w.dev.plan = []) (hok : mountOptionsOk w o) (hstrict : o.strict = false)
    (hf : Found w.dev.mem seq) (hplace : RecordPlace (replayWorld w o seq).fs t) (hr : RecordIs t r w)
    (hvalid : r.meaningless (replayWorld w o seq) = false) :
    HasWindow (replayWorld w o seq) t r mountReplay { w with fs := mountedFs w.dev.size o seq } := by
  have hplaced := replayWorld_placed hplan hok hf
  obtain ⟨hsz, hst⟩ := replayWorld_geometry w o seq
  have hflag := hplace.flag hplaced.size hplaced.aligned
  rw [hsz] at hflag
  have hfinish := indexFinishInterruptedCompaction_run hplan hok hf
  have hrec : RecordIs t r (replayWorld w o seq) := by
    have h := indexFinishInterruptedCompaction_keepsRecord { w with fs := mountedFs w.dev.size o seq } hr hflag
    rw [hfinish] at h
    exact h
  have hv : ValidAt (replayWorld w o seq) t r :=
    ⟨hplaced.plan, hplaced.granule_pos, hplaced.granule_mod, hst.trans hstrict, hrec, hvalid⟩
  rw [mountReplay]
  refine HasWindow.after_run (P := fun _ v' => v' = { w with
    dev := { w.dev with mem := seq.finishMem w.dev.mem }, fs := mountedFs w.dev.size o seq.finish })
    (Counted.to hplan fun _ v' hrun => ?_) (fun plan => ?_) hplan ?_
  · rw [hfinish] at hrun
    cases hrun
    rfl
  · exact indexFinishInterruptedCompaction_keepsRecord _ hr hflag
  · rintro - v1 rfl hv1
    refine HasWindow.after (P := fun _ v' => v' = replayWorld w o seq) (Counted.to hplan fun _ v' hrun => ?_)
      inferInstance hplan hv1 ?_
    · cases hrun
      rfl
    · rintro - v2 rfl -
      exact replayIndex_window hv hplaced hplace

/-- `fffs_mount`. -/
theorem mount_window (hplan : w.dev.plan = []) (hstrict : o.strict = false)
    (hseq : mountable w.dev.mem = some seq) (hplace : RecordPlace (replayWorld w o seq).fs t)
    (hr : RecordIs t r w) (hvalid : r.meaningless (replayWorld w o seq) = false) :
    HasWindow (replayWorld w o seq) t r (mount o) w := by
  obtain ⟨hf, hmod, hcount⟩ := mountable_some hseq
  have hfound : findSequence w.dev.mem = some seq := by
    rw [mountable, Option.filter_eq_some_iff] at hseq
    exact hseq.1
  rw [mount]
  refine HasWindow.get (fun plan => rfl) ?_
  by_cases hok : mountOptionsOk w o
  · have hguard : ¬ (validBackend w.dev = false ∨ indexCacheConfigValid o.indexHashTableSize = false ∨
        o.scratchSize < minScratchSize) := by
      obtain ⟨h1, h2, h3⟩ := hok
      simp [h1, h2, h3]
    rw [if_neg hguard, unmount]
    refine HasWindow.after (P := fun _ v' => v' = { w with fs := {} }) (Counted.to hplan fun _ v' hrun => ?_)
      inferInstance hplan hr ?_
    · cases hrun
      rfl
    rintro - v1 rfl hv1
    refine HasWindow.after (P := fun s v' => s = seq ∧ v' = { w with fs := {} })
      (Counted.to hplan fun s v' hrun => ?_) inferInstance hplan hv1 ?_
    · rw [findIndexSequence_findSequence (v := { w with fs := {} }) hplan, hfound] at hrun
      cases hrun
      exact ⟨rfl, rfl⟩
    rintro s v1 ⟨rfl, rfl⟩ -
    dsimp only
    have hgeo : ¬ (w.dev.size % sectorSizeOf s.sectorShift ≠ 0 ∨
        w.dev.size / sectorSizeOf s.sectorShift > uint16Max) := by
      rw [not_or, not_not]
      exact ⟨hmod, not_lt.mpr hcount⟩
    rw [if_neg hgeo]
    refine HasWindow.after (P := fun _ v' => v' = { w with fs := mountedFs w.dev.size o s })
      (Counted.to hplan fun _ v' hrun => ?_) inferInstance hplan hv1 ?_
    · cases hrun
      rfl
    rintro - v2 rfl -
    refine HasWindow.before (mountReplay_window hplan hok hstrict hf hplace hr hvalid).attempt ?_ ?_
    · intro res
      split <;> infer_instance
    · intro res
      split <;> infer_instance
  · rw [if_pos (by
      rw [mountOptionsOk, not_and_or, not_and_or] at hok
      simpa using hok)]
    exact .of_keeps inferInstance hr

end Mounting

/-- The first call that does not work is one of the `L` calls after `K` others. -/
def FirstErrorIn (K L : Nat) (plan : List Fault) : Prop := works K plan ∧ ¬ works L (plan.drop K)

/-- Only reads report errors: the device stays on after the first error, and if that is one
of the `L` reads of a root after `K` other calls, then the `G` calls that overwrite the
record work. -/
def ReadErrors (K L G : Nat) (plan : List Fault) : Prop :=
  ∀ i < L, works (K + i) plan → (plan.getD (K + i) .pass).passes = false →
    (plan.getD (K + i) .pass).fails = true ∧ works G (plan.drop (K + i + 1))

section Records

variable {t : Nat} {w : World} {o : MountOptions} {seq : IndexSequence}

/-- A mount that is not strict keeps a valid record, whatever calls of the device fail,
unless the first error is a read of its root.  That root is read when the record is the
last one of the active sector. -/
theorem mount_keeps_record_iff (hplan : w.dev.plan = []) (hstrict : o.strict = false)
    (hseq : mountable w.dev.mem = some seq) (hplace : RecordPlace (replayWorld w o seq).fs t)
    (hvalid : (recordAt w.dev.mem t).meaningless (replayWorld w o seq) = false) :
    ∃ K L G, (L = 0 ∨ AtRootCheck (replayWorld w o seq) t (recordAt w.dev.mem t) (mount o) w K L G) ∧
      (∀ plan, ¬ FirstErrorIn K L plan →
        recordAt ((mount o).run (w.withPlan plan)).2.dev.mem t = recordAt w.dev.mem t) ∧
      ∀ plan, ReadErrors K L G plan →
        (recordAt ((mount o).run (w.withPlan plan)).2.dev.mem t = recordAt w.dev.mem t ↔
          ¬ FirstErrorIn K L plan) := by
  obtain ⟨K, L, G, hwin, hcheck⟩ := mount_window hplan hstrict hseq hplace rfl hvalid
  refine ⟨K, L, G, hcheck, hwin.kept, fun plan hread => ⟨?_, hwin.kept plan⟩⟩
  rintro hkept ⟨hK, hL⟩
  obtain ⟨i, hi, hw, hno⟩ := exists_first_fault hL
  have hwi : works (K + i) plan := works_add.mpr ⟨hK, hw⟩
  rw [getD_drop_plan] at hno
  obtain ⟨hfail, hG⟩ := hread i hi hwi hno
  have hlost : recordAt _ t = ⟨0, 0⟩ := hwin.lost plan i hi hwi hfail hG
  rw [← hkept, hlost] at hvalid
  cases hvalid

end Records

omit [Opts] in
theorem storedFile_record : recordAt (storedFile [1#8]).dev.mem 8 = ⟨52512, 7⟩ := by
  decide +kernel

omit [Opts] in
/-- The record of the only file of a small chip. -/
theorem storedFile_valid : ∃ seq, mountable (storedFile [1#8]).dev.mem = some seq ∧
    RecordPlace (@replayWorld noCacheOpts (storedFile [1#8]) smallMount seq).fs 8 ∧
    (recordAt (storedFile [1#8]).dev.mem 8).meaningless
      (@replayWorld noCacheOpts (storedFile [1#8]) smallMount seq) = false := by
  obtain ⟨seq, hseq⟩ := Option.isSome_iff_exists.mp
    (show (mountable (storedFile [1#8]).dev.mem).isSome = true by decide +kernel)
  have hget : (mountable (storedFile [1#8]).dev.mem).get (by decide +kernel) = seq := by
    simp only [hseq, Option.get_some]
  refine ⟨seq, hseq, ⟨0, 0, ?_, ?_, ?_⟩, ?_⟩
  · rw [← hget]
    decide +kernel
  · rw [← hget]
    decide +kernel
  · rw [← hget]
    decide +kernel
  · rw [← hget]
    decide +kernel

omit [Opts] in
/-- The record of the only file of a small chip is lost at an error of the fifteenth call. -/
theorem mount_keeps_record_iff_stored :
    ∃ seq, mountable (storedFile [1#8]).dev.mem = some seq ∧
      ∃ K L G, (L = 0 ∨ AtRootCheck (@replayWorld noCacheOpts (storedFile [1#8]) smallMount seq) 8 ⟨52512, 7⟩
          (@mount noCacheOpts smallMount) (storedFile [1#8]) K L G) ∧
        (∀ plan, ¬ FirstErrorIn K L plan →
          recordAt ((@mount noCacheOpts smallMount).run ((storedFile [1#8]).withPlan plan)).2.dev.mem 8 =
            ⟨52512, 7⟩) ∧
        ∀ plan, ReadErrors K L G plan →
          (recordAt ((@mount noCacheOpts smallMount).run ((storedFile [1#8]).withPlan plan)).2.dev.mem 8 =
            ⟨52512, 7⟩ ↔ ¬ FirstErrorIn K L plan) := by
  obtain ⟨seq, hseq, hplace, hvalid⟩ := storedFile_valid
  have hplan : (storedFile [1#8]).dev.plan = [] := by decide +kernel
  have h := @mount_keeps_record_iff noCacheOpts 8 (storedFile [1#8]) smallMount seq hplan rfl hseq hplace hvalid
  rw [storedFile_record] at h
  exact ⟨seq, hseq, h⟩

omit [Opts] in
/-- One error of a read during a mount removes a file. -/
theorem mount_loses_record :
    ¬ ∀ [Opts] (w : World) (o : MountOptions) (seq : IndexSequence) (t k : Nat),
      w.dev.plan = [] → o.strict = false → mountable w.dev.mem = some seq →
      RecordPlace (replayWorld w o seq).fs t →
      recordAt ((mount o).run (w.withPlan (failAfter k))).2.dev.mem t = ⟨0, 0⟩ →
      (recordAt w.dev.mem t).meaningless (replayWorld w o seq) = true := by
  intro hall
  obtain ⟨seq, hseq, hplace, hvalid⟩ := storedFile_valid
  have hplan : (storedFile [1#8]).dev.plan = [] := by decide +kernel
  have hzero : recordAt ((@mount noCacheOpts smallMount).run
      ((storedFile [1#8]).withPlan (failAfter 14))).2.dev.mem 8 = ⟨0, 0⟩ := by
    decide +kernel
  have h := @hall noCacheOpts (storedFile [1#8]) smallMount seq 8 14 hplan rfl hseq hplace hzero
  rw [hvalid] at h
  cases h

end Fastffs
