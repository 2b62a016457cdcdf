import Fastffs.MountFlash

/-!
# The replay as a fold

`fffs_replay_index` reads the log by chunks whose size depends on the scratch buffer.
`replayFold` is what it computes without them: a fold over the records of the log, from
the oldest sector to the active one.  The two agree for every size of the buffer, but
for the end of the log in RAM after an error, which is where the last chunk has left
it.
-/

namespace Fastffs

open Prog
open Nor (Mem Byte blank)

/-! ## The size of the scratch buffer -/

/-- The world with another size of the scratch buffer. -/
def World.withScratch (w : World) (n : Nat) : World :=
  { w with fs := { w.fs with scratchSize := n } }

/-- The options of a mount with another size of the scratch buffer. -/
def MountOptions.withScratch (o : MountOptions) (n : Nat) : MountOptions := { o with scratchSize := n }

theorem aside_withScratch (n : Nat) : Aside (World.withScratch · n) :=
  ⟨fun _ => rfl, fun _ => rfl, fun _ => rfl, fun _ _ _ => rfl⟩

theorem SameData.withScratch {v : World} (hplan : v.dev.plan = []) (n : Nat) :
    SameData v (v.withScratch n) :=
  ⟨hplan, hplan, rfl, rfl, rfl, rfl, fun _ _ => rfl⟩

theorem readSectorSerial_alike {w w' : World} {sector : Nat} (h : SameData w w') :
    Alike w w' (readSectorSerial sector) (readSectorSerial sector) := by
  refine Alike.getFs ?_
  rw [h.sectorCount, h.indexSectors]
  split
  · exact Alike.throw _
  · next hrange =>
    have hs : w.fs.indexSectors ≤ sector := by
      by_contra hlt
      exact hrange (.inl (not_le.mp hlt))
    refine (readSectorFooter_alike h hs).bind fun view _ => ?_
    exact Alike.ite (Alike.throw _) (Alike.ite (Alike.throw _) (Alike.pure _))

/-- A change of a world that leaves the data sectors and the hints of the allocator alone. -/
structure AsideHint (f : World → World) (v : World) : Prop where
  sameData : ∀ cursor serial, SameData (v.withHint cursor serial) (f (v.withHint cursor serial))
  allocCursor : ∀ w, (f w).fs.allocCursor = w.fs.allocCursor
  nextSectorSerial : ∀ w, (f w).fs.nextSectorSerial = w.fs.nextSectorSerial
  withHint : ∀ w cursor serial, f (w.withHint cursor serial) = (f w).withHint cursor serial

section Hint

variable {f : World → World} {v : World}

theorem AsideHint.withHint_aside (h : AsideHint f v) (cursor serial : Nat) :
    AsideHint f (v.withHint cursor serial) where
  sameData := fun c s => h.sameData c s
  allocCursor := h.allocCursor
  nextSectorSerial := h.nextSectorSerial
  withHint := h.withHint

theorem AsideHint.data (h : AsideHint f v) : SameData v (f v) :=
  h.sameData v.fs.allocCursor v.fs.nextSectorSerial

theorem AsideHint.nextDataSector_eq (h : AsideHint f v) (sector : Nat) :
    nextDataSector (f v).fs sector = nextDataSector v.fs sector := by
  rw [nextDataSector, nextDataSector, h.data.indexSectors, h.data.sectorCount]

theorem AsideHint.setSerial (h : AsideHint f v) (serial : Nat) :
    f { v with fs := { v.fs with nextSectorSerial := serial } } =
      { f v with fs := { (f v).fs with nextSectorSerial := serial } } := by
  have hset := h.withHint v v.fs.allocCursor serial
  rw [← h.allocCursor] at hset
  exact (congrArg (fun c => f (v.withHint c serial)) (h.allocCursor v)).symm.trans hset

theorem AsideHint.setCursor (h : AsideHint f v) (cursor : Nat) :
    f { v with fs := { v.fs with allocCursor := cursor } } =
      { f v with fs := { (f v).fs with allocCursor := cursor } } := by
  have hset := h.withHint v cursor v.fs.nextSectorSerial
  rw [← h.nextSectorSerial] at hset
  exact (congrArg (fun s => f (v.withHint cursor s)) (h.nextSectorSerial v)).symm.trans hset

theorem recoverSectorSerial_aside (h : AsideHint f v) (sector : Nat) :
    (recoverSectorSerial sector).run (f v) =
      (((recoverSectorSerial sector).run v).1, f ((recoverSectorSerial sector).run v).2) := by
  obtain ⟨r, h1, h2⟩ := @readSectorSerial_alike _ _ sector h.data
  have hattempt : (Prog.attempt (readSectorSerial sector)).run v = (.ok r, v) := by
    rw [run_attempt, h1]
  have hattempt' : (Prog.attempt (readSectorSerial sector)).run (f v) = (.ok r, f v) := by
    rw [run_attempt, h2]
  rw [recoverSectorSerial, bind_of_ok (run_getFs _), bind_of_ok (run_getFs _), bind_of_ok hattempt,
    bind_of_ok hattempt']
  cases r with
  | error e => rfl
  | ok serial =>
    dsimp only
    rw [h.nextSectorSerial]
    by_cases hge : serial ≥ v.fs.nextSectorSerial
    · rw [when_pos hge, run_modifyFs, run_modifyFs]
      exact congrArg (Prod.mk _) (h.setSerial _).symm
    · rw [when_neg hge, run_pure, run_pure]

theorem recoverAllocatorLoop_aside (h : AsideHint f v) (m sector : Nat) :
    (recoverAllocatorLoop m sector).run (f v) =
      (((recoverAllocatorLoop m sector).run v).1, f ((recoverAllocatorLoop m sector).run v).2) := by
  induction m generalizing v sector with
  | zero => rfl
  | succ m ih =>
    have hvalid : validDataSector (f v).fs sector = validDataSector v.fs sector := by
      rw [validDataSector, validDataSector, h.data.indexSectors, h.data.sectorCount]
    rw [recoverAllocatorLoop, bind_of_ok (run_getFs _), bind_of_ok (run_getFs _), hvalid, h.nextDataSector_eq]
    split
    · rfl
    · have hstep := recoverSectorSerial_aside h sector
      obtain ⟨serial, hrun⟩ := recoverSectorSerial_run h.data.plan sector
      rw [hrun] at hstep
      rw [bind_of_ok hrun, bind_of_ok hstep]
      dsimp only
      split
      · rfl
      · exact ih (h.withHint_aside v.fs.allocCursor serial) _

/-- The hints of the allocator do not depend on what is left alone. -/
theorem allocatorHint_aside (h : AsideHint f v) (tail : Nat) :
    (allocatorHint tail).run (f v) =
      (((allocatorHint tail).run v).1, f ((allocatorHint tail).run v).2) := by
  unfold allocatorHint
  split
  · rw [recoverAllocatorHint, bind_of_ok (run_modifyFs _ _), bind_of_ok (run_modifyFs _ _),
      h.nextDataSector_eq, ← h.setCursor]
    exact recoverAllocatorLoop_aside (h.withHint_aside (nextDataSector v.fs tail) v.fs.nextSectorSerial) _ tail
  · rfl

end Hint

theorem asideHint_withScratch {v : World} (hplan : v.dev.plan = []) (n : Nat) :
    AsideHint (World.withScratch · n) v :=
  ⟨fun c s => SameData.withScratch (v := v.withHint c s) hplan n, fun _ => rfl, fun _ => rfl, fun _ _ _ => rfl⟩

/-! ## The fold -/

variable [Opts]

/-- The replay of a log as a fold over its records.  They are entered into the index
cache up to the first one that is not taken.  A mount that is not strict overwrites
that one with zeros if it is in the active sector and nothing follows it. -/
def replayFold (v : World) : Except Status Unit × World :=
  let sc := scanLog v v.fs.indexSequenceCount v.fs.oldestIndexSector
  match (applyRecords sc.records).run v with
  | (.error e, v1) => (.error e, v1)
  | (.ok (), v1) =>
      if sc.stop ≠ .bad then (allocatorHint (lastHead 0 sc.records)).run (v1.withNext sc.offset)
      else if v.fs.strict = false ∧ sc.terminal v = true then
        (allocatorHint (lastHead 0 sc.records)).run
          ((v1.withMem (Nor.program v.dev.mem sc.offset [0#8, 0#8, 0#8, 0#8]) []).withNext
            (sc.offset + 4))
      else (.error .corrupt, v1)

variable {v w : World} {o : MountOptions} {seq : IndexSequence}

/-- The result of a run agrees with that of a fold.  After an error the end of the log
in RAM is left open. -/
structure Agrees (res fold : Except Status Unit × World) : Prop where
  status : res.1 = fold.1
  world : ∃ x, res.2 = fold.2.withNext x
  next : fold.1 = .ok () → res.2 = fold.2

omit [Opts] in
theorem Agrees.refl (res : Except Status Unit × World) : Agrees res res :=
  ⟨rfl, ⟨res.2.fs.nextIndexOffset, rfl⟩, fun _ => rfl⟩

omit [Opts] in
theorem Agrees.error (e : Status) (v1 : World) (x : Nat) :
    Agrees (.error e, v1.withNext x) (.error e, v1) :=
  ⟨rfl, ⟨x, rfl⟩, fun h => by simp at h⟩

theorem replayIndex_fold (h : LogPlaced v) : Agrees (replayIndex.run v) (replayFold v) := by
  have hout := replayIndex_outcome h
  rw [ReplayOutcome] at hout
  rw [replayFold]
  rcases hrun : (applyRecords (scanLog v v.fs.indexSequenceCount
    v.fs.oldestIndexSector).records).run v with ⟨r, v1⟩
  rw [hrun] at hout
  cases r with
  | error e =>
    obtain ⟨x, hx⟩ := hout
    rw [hx]
    exact Agrees.error e v1 x
  | ok a =>
    dsimp only at hout ⊢
    split at hout
    · next hstop =>
      rw [if_pos hstop, hout]
      exact Agrees.refl _
    · next hstop =>
      rw [if_neg hstop]
      split at hout
      · next hrepair =>
        rw [if_pos hrepair, hout]
        exact Agrees.refl _
      · next hreject =>
        obtain ⟨x, hx⟩ := hout
        rw [if_neg hreject, hx]
        exact Agrees.error .corrupt v1 x

/-- The fold does not see the scratch buffer. -/
theorem replayFold_scratch (hplan : v.dev.plan = []) (n : Nat) :
    replayFold (v.withScratch n) = ((replayFold v).1, (replayFold v).2.withScratch n) := by
  have hsc : scanLog (v.withScratch n) (v.withScratch n).fs.indexSequenceCount
      (v.withScratch n).fs.oldestIndexSector =
      scanLog v v.fs.indexSequenceCount v.fs.oldestIndexSector :=
    scanLog_congr (SameData.withScratch hplan n) rfl rfl
  have hstrict : (v.withScratch n).fs.strict = v.fs.strict := rfl
  rw [replayFold, replayFold, hsc, hstrict]
  generalize scanLog v v.fs.indexSequenceCount v.fs.oldestIndexSector = sc
  have hterm : sc.terminal (v.withScratch n) = sc.terminal v := rfl
  rw [hterm, applyRecords_aside (v := v) (aside_withScratch n)]
  rcases hrun : (applyRecords sc.records).run v with ⟨r, v1⟩
  obtain ⟨b, heads, hv1⟩ := applyRecords_recached hplan hrun
  cases r with
  | error e => rfl
  | ok a =>
    dsimp only
    split
    · exact allocatorHint_aside (v := v1.withNext sc.offset) (asideHint_withScratch (by rw [hv1]; exact hplan) n) _
    · split
      · exact allocatorHint_aside
          (v := (v1.withMem (Nor.program v.dev.mem sc.offset [0#8, 0#8, 0#8, 0#8]) []).withNext
            (sc.offset + 4)) (asideHint_withScratch rfl n) _
      · rfl

omit [Opts] in
theorem mountedFs_scratch (size n : Nat) [Opts] (o : MountOptions) (seq : IndexSequence) :
    mountedFs size (o.withScratch n) seq = { mountedFs size o seq with scratchSize := n } := by
  unfold mountedFs indexCacheClear
  cases Opts.indexCacheMode <;> rfl

/-- Two mounts that differ in the scratch buffer start the replay from the same world. -/
theorem replayWorld_scratch (n : Nat) :
    replayWorld w (o.withScratch n) seq = (replayWorld w o seq).withScratch n := by
  unfold replayWorld allocMapInit
  rw [mountedFs_scratch]
  cases Opts.allocMapMode <;> rfl

/-- The replay of a mount is the fold over the records of the log, for any two sizes of
the scratch buffer: the status, the tables of the index cache and the flash are those of
the fold, and so is all the rest if the replay succeeds. -/
theorem replay_is_fold {n : Nat} (hplan : w.dev.plan = []) (hok : mountOptionsOk w o)
    (hok' : mountOptionsOk w (o.withScratch n)) (hseq : mountable w.dev.mem = some seq) :
    Agrees (replayIndex.run (replayWorld w o seq)) (replayFold (replayWorld w o seq)) ∧
      Agrees (replayIndex.run (replayWorld w (o.withScratch n) seq))
        ((replayFold (replayWorld w o seq)).1,
          (replayFold (replayWorld w o seq)).2.withScratch n) := by
  have hf := (mountable_some hseq).1
  refine ⟨replayIndex_fold (replayWorld_placed hplan hok hf), ?_⟩
  have hrun := replayIndex_fold (replayWorld_placed hplan hok' hf)
  rw [replayWorld_scratch] at hrun ⊢
  rw [replayFold_scratch (v := replayWorld w o seq) hplan n] at hrun
  exact hrun

/-- A log of sixteen deletes, a record of slot `0` and another delete. -/
def rejectedLog : World :=
  twoIndexSectors false 8 ((List.replicate 16 [1#8, 0#8, 0#8, 0#8]).flatten ++
    [0#8, 0#8, 5#8, 0#8, 1#8, 0#8, 0#8, 0#8])

/-- The sequence of `rejectedLog`. -/
def rejectedSequence : IndexSequence := ⟨2, 0, 0, 0, 0, 1⟩

omit [Opts] in
/-- Chunks of sixteen records and of thirty-one. -/
theorem replay_is_fold_rejected :
    Agrees ((@replayIndex defaultOpts).run
        (@replayWorld defaultOpts rejectedLog smallMount rejectedSequence))
      (@replayFold defaultOpts (@replayWorld defaultOpts rejectedLog smallMount rejectedSequence)) ∧
    Agrees ((@replayIndex defaultOpts).run
        (@replayWorld defaultOpts rejectedLog (smallMount.withScratch 127) rejectedSequence))
      ((@replayFold defaultOpts (@replayWorld defaultOpts rejectedLog smallMount rejectedSequence)).1,
        (@replayFold defaultOpts
          (@replayWorld defaultOpts rejectedLog smallMount rejectedSequence)).2.withScratch 127) :=
  @replay_is_fold defaultOpts rejectedLog smallMount rejectedSequence 127 rfl (by decide +kernel)
    (by decide +kernel) (by decide +kernel)

omit [Opts] in
/-- After an error the end of the log in RAM is that of the last whole chunk. -/
theorem replay_end_by_chunks :
    ¬ ∀ (opts : Opts) (w : World) (o : MountOptions) (n : Nat) (seq : IndexSequence),
      w.dev.plan = [] → @mountOptionsOk opts w o →
      @mountOptionsOk opts w (o.withScratch n) → mountable w.dev.mem = some seq →
      ((@replayIndex opts).run (@replayWorld opts w (o.withScratch n) seq)).2.fs.nextIndexOffset =
        ((@replayIndex opts).run (@replayWorld opts w o seq)).2.fs.nextIndexOffset := by
  intro hall
  have hsame := hall defaultOpts rejectedLog smallMount 256 rejectedSequence rfl (by decide +kernel)
    (by decide +kernel) (by decide +kernel)
  have hdiff : ((@replayIndex defaultOpts).run (@replayWorld defaultOpts rejectedLog
      (smallMount.withScratch 256) rejectedSequence)).2.fs.nextIndexOffset ≠
      ((@replayIndex defaultOpts).run (@replayWorld defaultOpts rejectedLog smallMount
        rejectedSequence)).2.fs.nextIndexOffset := by
    decide +kernel
  exact hdiff hsame

end Fastffs
