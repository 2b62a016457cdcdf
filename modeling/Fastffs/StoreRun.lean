import Fastffs.Listing
import Fastffs.Reformat
import Fastffs.Run
import Fastffs.StoreMount
import Fastffs.StoreWrite

/-!
# Runs on a store of small files

One client opens a handle, uses it and closes it, and makes calls by name, runs of the
collector and remounts in between.  `Phase` is what such a client can know: the directory, and the file it
reads or writes.  As long as each file fits into the window of its first sector, the answers of
the file system are those of the directory.
-/

namespace Fastffs

open Prog
open Nor (Byte Mem blank)

variable [Opts]

/-! ## What a client sees -/

/-- What a call returns. -/
inductive Answer where
  | done (status : Except Status Unit)
  | bytes (result : Except Status (List Byte))
  | place (result : Except Status Nat)
  | entry (result : Except Status Stat)
  | entries (result : Except Status (List Stat))
  | other

/-- What a call returns in the world. -/
def answer (w : World) : Op → Answer
  | .openFile h name flags => .done ((openFile h name flags).run w).1
  | .read h size => .bytes ((read h size).run w).1
  | .seek h offset whence => .place ((seek h offset whence).run w).1
  | .write h src => .done ((write h src).run w).1
  | .close h => .done ((close h).run w).1
  | .fstat h => .entry ((fstat h).run w).1
  | .stat name => .entry ((stat name).run w).1
  | .deleteFile name => .done ((deleteFile name).run w).1
  | .list => .entries (list.run w).1
  | .fsinfo .. | .gcStep | .gc _ => .other
  | .remount options => .done ((remount options).run w).1

/-- What the calls of a run return. -/
def answers : World → List Op → List Answer
  | _, [] => []
  | w, op :: ops => answer w op :: answers (stepOp w op) ops

/-- The directory, and what the open handle is for. -/
inductive Phase where
  | idle (d : Directory)
  | reading (d : Directory) (h : Nat) (f : SmallFile) (pos : Nat)
  | writing (d : Directory) (h : Nat) (f : SmallFile)

omit [Opts] in
/-- A call and its answer, in a directory. -/
inductive Phase.Step : Phase → Op → Answer → Phase → Prop where
  | stat {d : Directory} {name : List Byte} : Step (.idle d) (.stat name)
      (.entry ((d.lookup name).map fun f => ⟨f.name, f.bytes.length⟩)) (.idle d)
  | list {d : Directory} {files : List SmallFile} : d.Lists [] files →
      Step (.idle d) .list (.entries (.ok (files.map SmallFile.stat))) (.idle d)
  | gcStep {d : Directory} : Step (.idle d) .gcStep .other (.idle d)
  | gc {d : Directory} {maxSteps : Nat} : Step (.idle d) (.gc maxSteps) .other (.idle d)
  | fsinfo {d : Directory} {refresh refreshIfNeeded estimate : Bool} :
      Step (.idle d) (.fsinfo refresh refreshIfNeeded estimate) .other (.idle d)
  | remount {d : Directory} {options : MountOptions} : Step (.idle d) (.remount options) (.done (.ok ())) (.idle d)
  | missing {d : Directory} {h : Nat} {name : List Byte} {flags : OpenFlags} {err : Status} : flags.rdonly = true →
      d.lookup name = .error err → Step (.idle d) (.openFile h name flags) (.done (.error err)) (.idle d)
  | openRead {d : Directory} {h : Nat} {name : List Byte} {flags : OpenFlags} {f : SmallFile} : flags.rdonly = true →
      d.lookup name = .ok f → Step (.idle d) (.openFile h name flags) (.done (.ok ())) (.reading d h f 0)
  | refused {d : Directory} {h : Nat} {name : List Byte} {flags : OpenFlags} {err : Status} : flags.wronly = true →
      d.create name flags = .error err ∨ d.create name flags = .ok () →
      Step (.idle d) (.openFile h name flags) (.done (.error err)) (.idle d)
  | create {d : Directory} {h : Nat} {name : List Byte} {flags : OpenFlags} : flags.wronly = true →
      d.create name flags = .ok () →
      Step (.idle d) (.openFile h name flags) (.done (.ok ())) (.writing d h ⟨cstr name, []⟩)
  | absent {d : Directory} {name : List Byte} {err : Status} : (d.lookup name).map (fun _ => ()) = .error err →
      Step (.idle d) (.deleteFile name) (.done (.error err)) (.idle d)
  | undeleted {d : Directory} {name : List Byte} {f : SmallFile} : d.lookup name = .ok f →
      Step (.idle d) (.deleteFile name) (.done (.error .noSpace)) (.idle d)
  | delete {d : Directory} {name : List Byte} {k : Nat} : d.find (cstr name) = some k →
      Step (.idle d) (.deleteFile name) (.done (.ok ())) (.idle (d.remove k))
  | read {d : Directory} {h : Nat} {f : SmallFile} {pos size : Nat} : Step (.reading d h f pos) (.read h size)
      (.bytes (.ok ((f.bytes.drop pos).take size))) (.reading d h f (min (pos + size) f.bytes.length))
  | outside {d : Directory} {h : Nat} {f : SmallFile} {pos : Nat} {offset : Int} {whence : Whence} :
      seekGoal f pos offset whence < 0 ∨ seekGoal f pos offset whence > f.bytes.length →
      Step (.reading d h f pos) (.seek h offset whence) (.place (.error .range)) (.reading d h f pos)
  | seek {d : Directory} {h : Nat} {f : SmallFile} {pos goal : Nat} {offset : Int} {whence : Whence} :
      seekGoal f pos offset whence = goal →
      Step (.reading d h f pos) (.seek h offset whence) (.place (.ok goal)) (.reading d h f goal)
  | fstat {d : Directory} {h : Nat} {f : SmallFile} {pos : Nat} : Step (.reading d h f pos) (.fstat h)
      (.entry (.ok ⟨f.name, f.bytes.length⟩)) (.reading d h f pos)
  | closeRead {d : Directory} {h : Nat} {f : SmallFile} {pos : Nat} :
      Step (.reading d h f pos) (.close h) (.done (.ok ())) (.idle d)
  | write {d : Directory} {h : Nat} {f : SmallFile} {src : List Byte} :
      Step (.writing d h f) (.write h src) (.done (.ok ())) (.writing d h (f.append src))
  | fstatWrite {d : Directory} {h : Nat} {f : SmallFile} : Step (.writing d h f) (.fstat h)
      (.entry (.ok ⟨f.name, f.bytes.length⟩)) (.writing d h f)
  | commit {d : Directory} {h k : Nat} {f : SmallFile} (hk : d.Target f.name k) :
      Step (.writing d h f) (.close h) (.done (.ok ())) (.idle (d.put k f hk))

omit [Opts] in
/-- The calls of a client and their answers. -/
inductive Phase.Run : Phase → List Op → List Answer → Phase → Prop where
  | nil {p : Phase} : Run p [] [] p
  | cons {p p1 p2 : Phase} {op : Op} {ops : List Op} {a : Answer} {as : List Answer} :
      p.Step op a p1 → Run p1 ops as p2 → Run p (op :: ops) (a :: as) p2

/-! ## The calls of a run -/

/-- The table of the index has room. -/
def indexRoom (w : World) : Prop := Opts.indexCacheMode = .hashHeads → hashRoom w.fs

/-- One client makes the call.  Its files fit into their first windows, no stale root is left when a file is
replaced or deleted, a file is closed without an error, and a remount with the same options finds the index. -/
def smallOp (w : World) : Op → Prop
  | .openFile h name flags => w.fs.openFiles = [] ∧ flags.unknown = false ∧
      (flags.rdonly = true ∧ flags.wronly = false ∨
        flags.rdonly = false ∧ flags.wronly = true ∧ oldAlone (stepOp w (.openFile h name flags)) h)
  | .read h _ | .seek h _ _ => h ∈ w.fs.openFiles ∧ (w.files h).access = .rdonly
  | .write h src => h ∈ w.fs.openFiles ∧ (w.files h).access = .wronly ∧
      (w.files h).currentDataLen + src.length ≤ currentExtentCapacity (w.files h)
  | .close h => h ∈ w.fs.openFiles ∧
      ((w.files h).access = .wronly → isOk ((close h).run w).1 = true ∧ ((w.files h).oldHead = 0 → indexRoom w))
  | .fstat h => h ∈ w.fs.openFiles
  | .deleteFile name => w.fs.openFiles = [] ∧ nameAlone w name ∧ indexRoom w
  | .stat _ | .list | .gcStep | .gc _ | .fsinfo .. => w.fs.openFiles = []
  | .remount options => w.fs.openFiles = [] ∧ options = w.fs.options ∧ w.fs.ring.Ordered ∧
      noEarlierSequence w.dev.mem w.fs.sectorShift ∧ isOk ((remount options).run w).1 = true

instance (w : World) (name : List Byte) : Decidable (nameAlone w name) :=
  have (r : Resolved) : Decidable (r.alone w) :=
    match hr : r.root with
    | none => .isTrue fun found hno => by rw [hr] at hno; cases hno
    | some found => decidable_of_iff (soleRoot w r.slot found.1) <| by
        rw [Resolved.alone, hr]
        exact ⟨fun hs other heq => Option.some.inj heq ▸ hs, fun hs => hs found rfl⟩
  match hr : ((indexResolve name false).run w).1 with
  | .error e => .isTrue fun r hno => by rw [hr] at hno; cases hno
  | .ok r => decidable_of_iff (r.alone w) <| by
      rw [nameAlone, hr]
      exact ⟨fun ha other heq => Except.ok.inj heq ▸ ha, fun ha => ha r rfl⟩

instance (w : World) : Decidable (indexRoom w) :=
  inferInstanceAs (Decidable (Opts.indexCacheMode = .hashHeads →
    ∃ p < w.fs.indexHashTableSize, bucketAt w.fs.buckets p = none))

instance (w : World) : (op : Op) → Decidable (smallOp w op)
  | .openFile .. | .read .. | .seek .. | .write .. | .close _ | .fstat _ | .deleteFile _ | .stat _ | .list
  | .gcStep | .gc _ | .fsinfo .. | .remount _ => by dsimp only [smallOp]; infer_instance

/-- The handles that are open. -/
def Phase.handles : Phase → List Nat
  | .idle _ => []
  | .reading _ h _ _ => [h]
  | .writing _ h _ => [h]

/-- The world is in the phase. -/
def Phase.Holds (S c n : Nat) (w : World) : Phase → Prop
  | .idle d => Kept S c n False d.slot w
  | .reading d h f pos => Reading S c n False d h f pos w
  | .writing d h f => Composing S c n False d h f w

section Step

variable {S c n h : Nat} {w : World} {p : Phase} {op : Op}

omit [Opts] in
theorem run_discard {α : Type} (x : M α) (w : World) :
    ((do let _ ← x; pure () : M Unit).run w).2 = (x.run w).2 := by
  rw [run_bind]
  rcases x.run w with ⟨r, w'⟩
  cases r <;> rfl

theorem Phase.Holds.openFiles (hp : p.Holds S c n w) : w.fs.openFiles = p.handles := by
  cases p with
  | idle d =>
    obtain ⟨st, bad, hh⟩ := hp
    exact hh.idle
  | reading d h f pos =>
    obtain ⟨st, bad, s, e, -, hr⟩ := hp
    exact hr.openFiles
  | writing d h f =>
    obtain ⟨k, s, win, flushed, old, st, bad, v, hd, -, -⟩ := hp
    exact (hd.inside.view Fs.openFiles fun _ => rfl).trans hd.openFiles

/-- No handle is open. -/
theorem Phase.Holds.idle (hp : p.Holds S c n w) (hopen : w.fs.openFiles = []) :
    ∃ d, p = .idle d ∧ Kept S c n False d.slot w := by
  have hfiles := hp.openFiles
  cases p with
  | idle d => exact ⟨d, rfl, hp⟩
  | reading d h f pos => cases hopen.symm.trans hfiles
  | writing d h f => cases hopen.symm.trans hfiles

/-- A handle is open. -/
theorem Phase.Holds.busy (hp : p.Holds S c n w) (hopen : h ∈ w.fs.openFiles) :
    (∃ d f pos, p = .reading d h f pos ∧ (w.files h).access = .rdonly ∧ Reading S c n False d h f pos w) ∨
      ∃ d f, p = .writing d h f ∧ (w.files h).access = .wronly ∧ Composing S c n False d h f w := by
  have hfiles := hp.openFiles
  rw [hfiles] at hopen
  cases p with
  | idle d => cases hopen
  | reading d h' f pos =>
    obtain rfl := List.mem_singleton.mp hopen
    obtain ⟨st, bad, s, e, -, hr⟩ := id hp
    exact .inl ⟨d, f, pos, rfl, hr.file.access, hp⟩
  | writing d h' f =>
    obtain rfl := List.mem_singleton.mp hopen
    obtain ⟨k, s, win, flushed, old, st, bad, v, hd, -, -⟩ := id hp
    exact .inr ⟨d, f, rfl, hd.file.access, hp⟩

theorem Phase.Holds.reader (hp : p.Holds S c n w) (hopen : h ∈ w.fs.openFiles)
    (haccess : (w.files h).access = .rdonly) :
    ∃ d f pos, p = .reading d h f pos ∧ Reading S c n False d h f pos w := by
  rcases hp.busy hopen with ⟨d, f, pos, rfl, -, hr⟩ | ⟨d, f, -, hwrite, -⟩
  · exact ⟨d, f, pos, rfl, hr⟩
  · cases haccess.symm.trans hwrite

theorem Phase.Holds.writer (hp : p.Holds S c n w) (hopen : h ∈ w.fs.openFiles)
    (haccess : (w.files h).access = .wronly) :
    ∃ d f, p = .writing d h f ∧ Composing S c n False d h f w := by
  rcases hp.busy hopen with ⟨d, f, pos, -, hread, -⟩ | ⟨d, f, rfl, -, hw⟩
  · cases haccess.symm.trans hread
  · exact ⟨d, f, rfl, hw⟩

/-- `fffs_open` in a run. -/
theorem Phase.Holds.step_open {name : List Byte} {flags : OpenFlags} (hp : p.Holds S c n w)
    (hop : smallOp w (.openFile h name flags)) :
    ∃ p', p.Step (.openFile h name flags) (answer w (.openFile h name flags)) p' ∧
      p'.Holds S c n (stepOp w (.openFile h name flags)) := by
  obtain ⟨hopen, hknown, hflags⟩ := hop
  obtain ⟨d, rfl, hk⟩ := hp.idle hopen
  change ∃ p', Phase.Step (.idle d) _ (.done ((openFile h name flags).run w).1) p' ∧
    p'.Holds S c n ((openFile h name flags).run w).2
  rcases hflags with ⟨hread, hwrite⟩ | ⟨hread, hwrite, halone⟩
  · rcases hk.openRead_run h name hread hwrite hknown with ⟨err, w', hlookup, hrun, hkept⟩ | ⟨f, w', hlookup, hrun, hr⟩
    · rw [hrun]
      exact ⟨_, .missing hread hlookup, hkept⟩
    · rw [hrun]
      exact ⟨_, .openRead hread hlookup, hr⟩
  · rcases hk.create_run (fun hno => hno.elim) h name hread hwrite hknown with
      ⟨err, w', hrun, hcreate, hkept⟩ | ⟨hcreate, w', hrun, hw⟩
    · rw [hrun]
      exact ⟨_, .refused hwrite hcreate, hkept⟩
    · change oldAlone ((openFile h name flags).run w).2 h at halone
      rw [hrun] at halone ⊢
      exact ⟨_, .create hwrite hcreate, hw halone⟩

/-- `fffs_close` in a run. -/
theorem Phase.Holds.step_close (hp : p.Holds S c n w) (heager : Opts.lazyDeleteTombstones = false)
    (hop : smallOp w (.close h)) :
    ∃ p', p.Step (.close h) (answer w (.close h)) p' ∧ p'.Holds S c n (stepOp w (.close h)) := by
  obtain ⟨hopen, hclose⟩ := hop
  rcases hp.busy hopen with ⟨d, f, pos, rfl, -, hr⟩ | ⟨d, f, rfl, hwrite, hw⟩
  · obtain ⟨w', hrun, hkept⟩ := hr.close_run
    change ∃ p', Phase.Step _ _ (.done ((close h).run w).1) p' ∧ p'.Holds S c n ((close h).run w).2
    rw [hrun]
    exact ⟨_, .closeRead, hkept⟩
  · obtain ⟨hok, hroom⟩ := hclose hwrite
    change ∃ p', Phase.Step _ _ (.done ((close h).run w).1) p' ∧ p'.Holds S c n ((close h).run w).2
    have hroom' : Opts.indexCacheMode = .hashHeads → (w.files h).oldHead ≠ 0 ∨ hashRoom w.fs := fun hmode =>
      or_iff_not_imp_left.mpr fun hzero => hroom (not_not.mp hzero) hmode
    rcases hw.close_run heager hroom' with ⟨w', hrun⟩ | ⟨k, hk, w', hrun, hkept⟩
    · rw [hrun] at hok
      cases hok
    · rw [hrun]
      exact ⟨_, .commit hk, hkept⟩

/-- `fffs_delete_file` in a run. -/
theorem Phase.Holds.step_delete {name : List Byte} (hp : p.Holds S c n w)
    (heager : Opts.lazyDeleteTombstones = false) (hop : smallOp w (.deleteFile name)) :
    ∃ p', p.Step (.deleteFile name) (answer w (.deleteFile name)) p' ∧
      p'.Holds S c n (stepOp w (.deleteFile name)) := by
  obtain ⟨hopen, halone, hroom⟩ := hop
  obtain ⟨d, rfl, hk⟩ := hp.idle hopen
  change ∃ p', Phase.Step _ _ (.done ((deleteFile name).run w).1) p' ∧ p'.Holds S c n ((deleteFile name).run w).2
  rcases hk.delete_run heager (.inr halone) hroom with ⟨err, w', hrun, hlookup, hkept⟩ |
    ⟨f, w', hlookup, ⟨hrun, hkept⟩ | ⟨k, hfind, hrun, hkept⟩⟩
  · rw [hrun]
    exact ⟨_, .absent hlookup, hkept⟩
  · rw [hrun]
    exact ⟨_, .undeleted hlookup, hkept⟩
  · rw [hrun]
    exact ⟨_, .delete hfind, hkept⟩

/-- Each call answers what the directory says, and the world stays in the phase. -/
theorem Phase.Holds.step (hp : p.Holds S c n w) (heager : Opts.lazyDeleteTombstones = false)
    (hop : smallOp w op) : ∃ p', p.Step op (answer w op) p' ∧ p'.Holds S c n (stepOp w op) := by
  cases op with
  | openFile h name flags => exact hp.step_open hop
  | close h => exact hp.step_close heager hop
  | deleteFile name => exact hp.step_delete heager hop
  | remount options =>
    obtain ⟨hopen, rfl, hord, hno, hok⟩ := hop
    obtain ⟨d, rfl, hk⟩ := hp.idle hopen
    have hrun := run_eq_of_isOk hok
    rw [answer, hrun]
    exact ⟨_, .remount, hk.remount_run hord hno hrun⟩
  | read h size =>
    obtain ⟨d, f, pos, rfl, hr⟩ := hp.reader hop.1 hop.2
    obtain ⟨w', hrun, hr'⟩ := hr.read_run size
    rw [stepOp, execOp, run_discard, answer, hrun]
    exact ⟨_, .read, hr'⟩
  | seek h offset whence =>
    obtain ⟨d, f, pos, rfl, hr⟩ := hp.reader hop.1 hop.2
    rw [stepOp, execOp, run_discard, answer]
    rcases hr.seek_run offset whence with ⟨hout, hrun⟩ | ⟨goal, w', hgoal, hrun, hr'⟩
    · rw [hrun]
      exact ⟨_, .outside hout, hr⟩
    · rw [hrun]
      exact ⟨_, .seek hgoal, hr'⟩
  | write h src =>
    obtain ⟨hopen, haccess, hfits⟩ := hop
    obtain ⟨d, f, rfl, hw⟩ := hp.writer hopen haccess
    obtain ⟨w', hrun, hw'⟩ := hw.write_run hfits
    rw [stepOp, execOp, answer, hrun]
    exact ⟨_, .write, hw'⟩
  | fstat h =>
    rw [stepOp, execOp, run_discard, answer]
    rcases hp.busy hop with ⟨d, f, pos, rfl, -, hr⟩ | ⟨d, f, rfl, -, hw⟩
    · rw [hr.fstat_run]
      exact ⟨_, .fstat, hr⟩
    · rw [hw.fstat_run]
      exact ⟨_, .fstatWrite, hw⟩
  | stat name =>
    obtain ⟨d, rfl, st, bad, hh⟩ := hp.idle hop
    rw [stepOp, execOp, run_discard, answer, hh.stat_run]
    exact ⟨_, .stat, hh.kept⟩
  | list =>
    obtain ⟨d, rfl, st, bad, hh⟩ := hp.idle hop
    obtain ⟨files, hrun, hlists⟩ := hh.list_run
    rw [stepOp, execOp, run_discard, answer, hrun]
    exact ⟨_, .list hlists, hh.kept⟩
  | fsinfo refresh refreshIfNeeded estimate =>
    obtain ⟨d, rfl, st, bad, hh⟩ := hp.idle hop
    rw [stepOp, execOp, run_discard]
    exact ⟨_, .fsinfo, (@Holds.keeps _ _ _ _ _ _ _ _ _ _ (fsinfo refresh refreshIfNeeded estimate) hh _ _).1.kept⟩
  | gcStep =>
    obtain ⟨d, rfl, hk⟩ := hp.idle hop
    rw [stepOp, execOp, run_discard]
    have hcollected := (inferInstance : Keeps (Collected S c n False d.slot w) gcStepPublic).keeps w ⟨hk, rfl⟩
    exact ⟨_, .gcStep, hcollected.1⟩
  | gc maxSteps =>
    obtain ⟨d, rfl, hk⟩ := hp.idle hop
    rw [stepOp, execOp, run_discard]
    have hcollected := (inferInstance : Keeps (Collected S c n False d.slot w) (gc maxSteps 0)).keeps w ⟨hk, rfl⟩
    exact ⟨_, .gc, hcollected.1⟩

/-- A run answers what the directory says. -/
theorem Phase.Holds.run {ops : List Op} (hp : p.Holds S c n w) (heager : Opts.lazyDeleteTombstones = false)
    (hops : Steps.Allowed stepOp smallOp ops w) :
    ∃ p', p.Run ops (answers w ops) p' ∧ p'.Holds S c n (ops.foldl stepOp w) := by
  induction ops generalizing w p with
  | nil => exact ⟨p, .nil, hp⟩
  | cons op ops ih =>
    obtain ⟨p1, hstep, hp1⟩ := hp.step heager hops.1
    obtain ⟨p2, hrun, hp2⟩ := ih hp1 hops.2
    exact ⟨p2, .cons hstep hrun, hp2⟩

end Step

/-! ## A run on a fresh chip -/

section Start

variable {n shift : Nat} {w : World} {o : MountOptions}

/-- A fresh file system with blank data sectors holds no files. -/
theorem Formatted.kept (hf : Formatted w.dev n shift) (hplan : w.dev.plan = []) (hok : mountOptionsOk w o)
    (hsmall : w.dev.size / sectorSizeOf shift ≤ uint16Max) (hS : sectorSizeOf shift ≤ 65536)
    (hgranule : w.dev.programGranule ≤ mdFileRecordSize + sectorFooterSize)
    (hblank : ∀ a, n * sectorSizeOf shift ≤ a → a < w.dev.size → Nor.get w.dev.mem a = blank) :
    Kept (sectorSizeOf shift) (w.dev.size / sectorSizeOf shift) n False (Slots.empty : Directory).slot
      { w with fs := allocMapInit (mountedFs w.dev.size o (freshSequence n shift)) } := by
  have hstate := hf.runState hplan hok hsmall
  obtain ⟨map, hmap⟩ := allocMapInit_eq (mountedFs w.dev.size o (freshSequence n shift))
  rw [hmap] at hstate ⊢
  have hscratch := hok.2.2
  rw [minScratchSize] at hscratch
  have hbackend := hok.1
  rw [validBackend, Bool.and_eq_true, decide_eq_true_eq] at hbackend
  have hpos : 0 < sectorSizeOf shift := Nat.lt_of_lt_of_le (by decide) (sectorSizeOf_ge shift)
  have hfiled : ∀ s, InData n (w.dev.size / sectorSizeOf shift) s →
      Filed (sectorSizeOf shift) (w.dev.size / sectorSizeOf shift) n s []
        { w with fs := { mountedFs w.dev.size o (freshSequence n shift) with allocMap := map } } := by
    intro s hs
    have hinside : (s + 1) * sectorSizeOf shift ≤ w.dev.size := (Nat.le_div_iff_mul_le hpos).mp hs.2
    refine filed_blank ⟨rfl, rfl, rfl, ?_, hf.granule_pos, hbackend.2, hplan, sectorSizeOf_ge shift, hs.1, hs.2,
      hinside⟩ fun a ha => ?_
    · change 0 < o.scratchSize
      omega
    · rw [Nat.succ_mul] at hinside
      exact hblank _ (Nat.le_add_right_of_le (Nat.mul_le_mul_right _ hs.1)) (by omega)
  refine ⟨⟨fun _ => none, fun _ => []⟩, fun _ => False, rfl,
    ⟨⟨hS, hgranule, rfl, rfl, rfl, ⟨[[]], hstate, fun _ => rfl⟩,
    fun s hs _ => hfiled s hs, fun _ _ hno => hno.elim, fun _ _ => rfl⟩, fun hno => by cases hno⟩, ?_,
    fun hno => hno.elim, rfl⟩
  exact ⟨fun _ => List.Pairwise.nil, fun _ _ hno => (by cases hno), fun _ _ hno => (by cases hno)⟩

end Start

/-- A chip has been formatted and mounted, and its data sectors are blank. -/
structure FreshMounted (format_ : FormatOptions) (mount_ : MountOptions) (w1 w2 : World) : Prop where
  formatted : ∃ w0, w0.dev.plan = [] ∧ (format format_).run w0 = (.ok (), w1)
  mounted : (remount mount_).run w1 = (.ok (), w2)
  small : format_.size ≤ 65536
  granule : w1.dev.programGranule ≤ mdFileRecordSize + sectorFooterSize
  blank : ∀ a, format_.sectors * format_.size ≤ a → a < w1.dev.size → Nor.get w1.dev.mem a = blank

/-- The first world of a run holds the empty directory. -/
theorem FreshMounted.kept {format_ : FormatOptions} {mount_ : MountOptions} {w1 w2 : World}
    (h : FreshMounted format_ mount_ w1 w2) :
    Phase.Holds format_.size (w1.dev.size / format_.size) format_.sectors w2 (.idle Slots.empty) := by
  obtain ⟨w0, hplan, hformat⟩ := h.formatted
  obtain ⟨shift, hshift, hf, hplan1⟩ := format_formatted hformat
  obtain ⟨hvalid, hsmall⟩ := format_accepts hformat hshift
  have hsize := formatSectorShift_size hshift
  have hmount := h.mounted
  have hS := h.small
  have hblank := h.blank
  rw [remount_run] at hmount
  obtain ⟨-, hok, -⟩ := mount_settled hmount
  generalize format_.sectors = n at hf hblank ⊢
  rw [← hsize] at hS hblank ⊢
  have hrun := @Formatted.mount_run _ { w1 with fs := {}, files := fun _ => {} } n shift mount_ hf (hplan1 hplan) hok
    hsmall
  rw [hmount] at hrun
  obtain rfl : w2 = _ := congrArg Prod.snd hrun
  exact @Formatted.kept _ n shift { w1 with fs := {}, files := fun _ => {} } mount_ hf (hplan1 hplan) hok hsmall hS
    h.granule hblank

omit [Opts] in
/-- Above the last cleared bit the memory is erased. -/
theorem get_of_cleared_lt {m : Mem} {lo a : Nat} (h : m.cleared < 2 ^ (8 * lo)) (hle : lo ≤ a) :
    Nor.get m a = blank := by
  have hlt : m.cleared < 2 ^ (8 * a) :=
    Nat.lt_of_lt_of_le h (Nat.pow_le_pow_right (by decide) (Nat.mul_le_mul_left 8 hle))
  rw [Nor.get, Nat.shiftRight_eq_div_pow, Nat.div_eq_of_lt hlt]
  rfl

omit [Opts] in
theorem freshMounted_smallMount : @FreshMounted defaultOpts { sectorSize := 256, indexSectors := 2 } smallMount
    (formattedChip 14 2) ((@remount defaultOpts smallMount).run (formattedChip 14 2)).2 := by
  have hlt : (formattedChip 14 2).dev.mem.cleared < 2 ^ (8 * 512) := by decide +kernel
  exact @FreshMounted.mk defaultOpts _ _ _ _ ⟨blankChip 14, rfl, run_eq_of_isOk (by decide +kernel)⟩
    (run_eq_of_isOk (by decide +kernel)) (by decide) (by decide +kernel) fun a hle _ => get_of_cleared_lt hlt hle

/-- On a fresh chip, the answers of a run are those of a directory that was empty at first. -/
theorem small_files_run {format_ : FormatOptions} {mount_ : MountOptions} {w1 w2 : World} {ops : List Op}
    (heager : Opts.lazyDeleteTombstones = false) (h : FreshMounted format_ mount_ w1 w2)
    (hops : Steps.Allowed stepOp smallOp ops w2) :
    ∃ p, Phase.Run (.idle Slots.empty) ops (answers w2 ops) p ∧
      p.Holds format_.size (w1.dev.size / format_.size) format_.sectors (ops.foldl stepOp w2) :=
  h.kept.run heager hops

/-- Two files are written. -/
def writeRun : List Op :=
  [.openFile 0 [0x61#8] writeFlags, .write 0 (List.replicate 40 1#8), .close 0,
    .openFile 1 [0x62#8] writeFlags, .write 1 [2#8], .fstat 1, .close 1, .gcStep]

/-- The first file is replaced. -/
def rewriteRun : List Op :=
  [.openFile 0 [0x61#8] writeFlags, .write 0 [3#8], .write 0 [4#8], .close 0]

/-- The second file is deleted, and the first is read after a remount. -/
def cleanRun : List Op :=
  [.deleteFile [0x62#8], .stat [0x62#8], .gc 4, .remount smallMount, .list,
    .openFile 2 [0x61#8] { rdonly := true }, .seek 2 1 .set, .read 2 8, .close 2]

omit [Opts] in
theorem small_files_run_cleanRun :
    let w2 := ((@remount defaultOpts smallMount).run (formattedChip 14 2)).2
    let ops := writeRun ++ rewriteRun ++ cleanRun
    ∃ p, Phase.Run (.idle Slots.empty) ops (@answers defaultOpts w2 ops) p ∧
      @Phase.Holds defaultOpts 256 14 2 (ops.foldl (@stepOp defaultOpts) w2) p := by
  intro w2 ops
  have hallowed : Steps.Allowed (@stepOp defaultOpts) (@smallOp defaultOpts) ops w2 := by decide +kernel
  exact @small_files_run defaultOpts _ _ _ w2 _ rfl freshMounted_smallMount hallowed

/-! ## Files that are left alone -/

/-- The call may change the file of the name. -/
def Op.changes (name : List Byte) : Op → Prop
  | .openFile _ other flags => flags.wronly = true ∧ cstr other = cstr name
  | .deleteFile other => cstr other = cstr name
  | _ => False

instance (name : List Byte) : (op : Op) → Decidable (op.changes name)
  | .openFile _ other flags => inferInstanceAs (Decidable (flags.wronly = true ∧ cstr other = cstr name))
  | .deleteFile other => inferInstanceAs (Decidable (cstr other = cstr name))
  | .read .. | .seek .. | .write .. | .close _ | .fstat _ | .stat _ | .list | .fsinfo .. | .gcStep | .gc _
  | .remount _ => inferInstanceAs (Decidable False)

/-- The directory of a phase. -/
def Phase.dir : Phase → Directory
  | .idle d | .reading d _ _ _ | .writing d _ _ => d

/-- No file of the name is written. -/
def Phase.free (name : List Byte) : Phase → Prop
  | .writing _ _ f => f.name ≠ cstr name
  | _ => True

section Unchanged

variable {S c n h size : Nat} {w : World} {p p' : Phase} {op : Op} {ops : List Op} {a : Answer} {as : List Answer}
  {name : List Byte} {d d' : Directory} {f : SmallFile}

omit [Opts] in
/-- A call that does not change the file leaves it in the directory. -/
theorem Phase.Step.keeps (hs : p.Step op a p') (hop : ¬ op.changes name) (hfree : p.free name) :
    p'.dir.get (cstr name) = p.dir.get (cstr name) ∧ p'.free name := by
  cases hs with
  | create hwrite hcreate => exact ⟨rfl, fun heq => hop ⟨hwrite, heq⟩⟩
  | delete hfind =>
    refine ⟨?_, trivial⟩
    change (Slots.remove _ _).get _ = _
    rw [Slots.get_remove hfind]
    exact Function.update_of_ne (fun heq => hop heq.symm) _ _
  | commit hk =>
    refine ⟨?_, trivial⟩
    change (Slots.put _ _ _ hk).get _ = _
    rw [Slots.get_put]
    exact Function.update_of_ne (fun heq => hfree heq.symm) _ _
  | write => exact ⟨rfl, hfree⟩
  | fstatWrite => exact ⟨rfl, hfree⟩
  | _ => exact ⟨rfl, trivial⟩

omit [Opts] in
theorem Phase.Run.keeps (hr : p.Run ops as p') (hops : ∀ op ∈ ops, ¬ op.changes name) (hfree : p.free name) :
    p'.dir.get (cstr name) = p.dir.get (cstr name) := by
  induction hr with
  | nil => rfl
  | cons hstep _ ih =>
    obtain ⟨hget, hfree1⟩ := hstep.keeps (hops _ List.mem_cons_self) hfree
    exact (ih (fun op hop => hops op (List.mem_cons_of_mem _ hop)) hfree1).trans hget

omit [Opts] in
/-- A lookup finds what is in the directory under the name. -/
theorem Directory.lookup_ok : d.lookup name = .ok f ↔
    (cstr name).length ≠ 0 ∧ (cstr name).length ≤ maxName ∧ d.get (cstr name) = some f := by
  rw [Directory.lookup]
  split
  · next h0 => exact iff_of_false (fun hno => by cases hno) fun hno => hno.1 h0
  · next h0 =>
    split
    · next hmax => exact iff_of_false (fun hno => by cases hno) fun hno => absurd hno.2.1 (Nat.not_le.mpr hmax)
    · next hmax =>
      cases hget : d.get (cstr name) with
      | none => exact iff_of_false (fun hno => by cases hno) fun hno => by cases hno.2.2
      | some g => exact ⟨fun heq => ⟨h0, Nat.le_of_not_gt hmax, congrArg some (Except.ok.inj heq)⟩,
          fun heq => congrArg Except.ok (Option.some.inj heq.2.2)⟩

omit [Opts] in
/-- A name that can be opened for writing is one that can be looked up. -/
theorem Directory.create_ok {flags : OpenFlags} (h : d.create name flags = .ok ()) :
    (cstr name).length ≠ 0 ∧ (cstr name).length ≤ maxName := by
  rw [Directory.create, Directory.lookup] at h
  by_cases h0 : (cstr name).length = 0
  · rw [if_pos h0] at h
    cases h
  · rw [if_neg h0] at h
    by_cases hmax : (cstr name).length > maxName
    · rw [if_pos hmax] at h
      cases h
    · exact ⟨h0, Nat.le_of_not_gt hmax⟩

/-- Open a file and read it. -/
def readBack (h : Nat) (name : List Byte) (size : Nat) : M (List Byte) := do
  openFile h name { rdonly := true }
  read h size

/-- A file is read back if and only if the directory has it. -/
theorem Kept.readBack_run {x : Prop} (hk : Kept S c n x d.slot w) (h : Nat) (name : List Byte) (size : Nat) :
    (∃ err, d.lookup name = .error err ∧ ((readBack h name size).run w).1 = .error err) ∨
      ∃ f, d.lookup name = .ok f ∧ ((readBack h name size).run w).1 = .ok (f.bytes.take size) := by
  rcases @Kept.openRead_run _ S c n x d w hk h name { rdonly := true } rfl rfl rfl with
    ⟨err, w', hlookup, hrun, -⟩ | ⟨f, w', hlookup, hrun, hr⟩
  · exact .inl ⟨err, hlookup, by rw [readBack, bind_of_error hrun]⟩
  · obtain ⟨w2, hread, -⟩ := hr.read_run size
    exact .inr ⟨f, hlookup, by rw [readBack, bind_of_ok hrun, hread]; rfl⟩

omit [Opts] in
theorem allowed_append {σ α : Type} {step : σ → α → σ} {P : σ → α → Prop} {as bs : List α} {s : σ}
    (h : Steps.Allowed step P (as ++ bs) s) :
    Steps.Allowed step P as s ∧ Steps.Allowed step P bs (as.foldl step s) := by
  induction as generalizing s with
  | nil => exact ⟨trivial, h⟩
  | cons a as ih =>
    obtain ⟨has, hbs⟩ := ih h.2
    exact ⟨⟨h.1, has⟩, hbs⟩

/-- A file that no call changes is read back at the end of a run. -/
theorem Phase.Holds.readBack (hp : p.Holds S c n w) (heager : Opts.lazyDeleteTombstones = false)
    (hops : Steps.Allowed stepOp smallOp ops w) (hchange : ∀ op ∈ ops, ¬ op.changes name) (hfree : p.free name)
    (hfile : p.dir.lookup name = .ok f) (hidle : (ops.foldl stepOp w).fs.openFiles = []) :
    ((Fastffs.readBack h name size).run (ops.foldl stepOp w)).1 = .ok (f.bytes.take size) := by
  obtain ⟨p', hrun, hp'⟩ := hp.run heager hops
  have hget := hrun.keeps hchange hfree
  obtain ⟨d, rfl, hk⟩ := hp'.idle hidle
  rw [Directory.lookup_ok] at hfile
  have hlookup : d.lookup name = .ok f := Directory.lookup_ok.mpr ⟨hfile.1, hfile.2.1, hget.trans hfile.2.2⟩
  rcases hk.readBack_run h name size with ⟨err, hno, -⟩ | ⟨g, hg, hread⟩
  · cases hlookup.symm.trans hno
  · cases hlookup.symm.trans hg
    exact hread

/-- The writes of a file follow each other. -/
theorem Phase.Holds.writes {srcs : List (List Byte)} (hp : Phase.Holds S c n w (.writing d h f))
    (heager : Opts.lazyDeleteTombstones = false)
    (hops : Steps.Allowed stepOp smallOp (srcs.map (Op.write h)) w) :
    Phase.Holds S c n ((srcs.map (Op.write h)).foldl stepOp w) (.writing d h (f.append srcs.flatten)) := by
  induction srcs generalizing w f with
  | nil =>
    have hsame : f.append [] = f := by rw [SmallFile.append, List.append_nil]
    rw [List.flatten_nil, hsame]
    exact hp
  | cons src srcs ih =>
    obtain ⟨p', hstep, hp'⟩ := hp.step heager hops.1
    generalize answer w (.write h src) = a at hstep
    cases hstep
    have hrest := ih hp' hops.2
    rwa [SmallFile.append, SmallFile.append, List.append_assoc, ← List.flatten_cons] at hrest

end Unchanged

/-- A file that no call of the rest of a run changes stays as it is, whatever the collector moves. -/
theorem unchanged_file_kept {format_ : FormatOptions} {mount_ : MountOptions} {w1 w2 : World} {ops rest : List Op}
    {h size : Nat} {name bs : List Byte} (heager : Opts.lazyDeleteTombstones = false)
    (hfresh : FreshMounted format_ mount_ w1 w2) (hops : Steps.Allowed stepOp smallOp (ops ++ rest) w2)
    (hidle : (ops.foldl stepOp w2).fs.openFiles = [])
    (hread : ((readBack h name size).run (ops.foldl stepOp w2)).1 = .ok bs)
    (hchange : ∀ op ∈ rest, ¬ op.changes name) (hidle' : ((ops ++ rest).foldl stepOp w2).fs.openFiles = []) :
    ((readBack h name size).run ((ops ++ rest).foldl stepOp w2)).1 = .ok bs := by
  obtain ⟨hfront, hrest⟩ := allowed_append hops
  obtain ⟨p, -, hp⟩ := hfresh.kept.run heager hfront
  obtain ⟨d, rfl, hk⟩ := hp.idle hidle
  rw [List.foldl_append] at hidle' ⊢
  rcases hk.readBack_run h name size with ⟨err, -, hno⟩ | ⟨f, hlookup, hok⟩
  · cases hread.symm.trans hno
  · cases hread.symm.trans hok
    exact hp.readBack heager hrest hchange trivial hlookup hidle'

omit [Opts] in
theorem unchanged_file_kept_rewriteRun :
    let w2 := ((@remount defaultOpts smallMount).run (formattedChip 14 2)).2
    ((@readBack defaultOpts 3 [0x62#8] 8).run ((writeRun ++ rewriteRun).foldl (@stepOp defaultOpts) w2)).1 =
      .ok [2#8] := by
  intro w2
  have hallowed : Steps.Allowed (@stepOp defaultOpts) (@smallOp defaultOpts) (writeRun ++ rewriteRun) w2 := by
    decide +kernel
  have hread : ((@readBack defaultOpts 3 [0x62#8] 8).run (writeRun.foldl (@stepOp defaultOpts) w2)).1 = .ok [2#8] := by
    decide +kernel
  have hidle : (writeRun.foldl (@stepOp defaultOpts) w2).fs.openFiles = [] := List.isEmpty_iff.mp (by decide +kernel)
  have hidle' : ((writeRun ++ rewriteRun).foldl (@stepOp defaultOpts) w2).fs.openFiles = [] :=
    List.isEmpty_iff.mp (by decide +kernel)
  exact @unchanged_file_kept defaultOpts _ _ _ w2 writeRun rewriteRun 3 8 [0x62#8] _ rfl freshMounted_smallMount
    hallowed hidle hread (by decide) hidle'

/-- What is written to a file and closed is read back from then on, until a call changes the file. -/
theorem written_file_read_back {format_ : FormatOptions} {mount_ : MountOptions} {w1 w2 : World}
    {ops rest : List Op} {srcs : List (List Byte)} {h h' size : Nat} {name : List Byte} {flags : OpenFlags}
    (heager : Opts.lazyDeleteTombstones = false) (hfresh : FreshMounted format_ mount_ w1 w2)
    (hops : Steps.Allowed stepOp smallOp
      (ops ++ (.openFile h name flags :: (srcs.map (Op.write h) ++ (.close h :: rest)))) w2)
    (hwrite : flags.wronly = true) (hopened : ((openFile h name flags).run (ops.foldl stepOp w2)).1 = .ok ())
    (hchange : ∀ op ∈ rest, ¬ op.changes name)
    (hidle : ((ops ++ (.openFile h name flags :: (srcs.map (Op.write h) ++ (.close h :: rest)))).foldl stepOp
      w2).fs.openFiles = []) :
    ((readBack h' name size).run
        ((ops ++ (.openFile h name flags :: (srcs.map (Op.write h) ++ (.close h :: rest)))).foldl stepOp w2)).1 =
      .ok (srcs.flatten.take size) := by
  obtain ⟨hfront, hopen, hbody⟩ := allowed_append hops
  obtain ⟨p, -, hp⟩ := hfresh.kept.run heager hfront
  obtain ⟨d, rfl, -⟩ := hp.idle hopen.1
  obtain ⟨p1, hstep1, hp1⟩ := hp.step heager hopen
  rw [List.foldl_append, List.foldl_cons, List.foldl_append, List.foldl_cons] at hidle ⊢
  obtain ⟨hwrites, hclose, hrest⟩ := allowed_append hbody
  generalize ops.foldl stepOp w2 = v at hp hopen hp1 hwrites hclose hrest hopened hstep1 hidle ⊢
  rw [answer, hopened] at hstep1
  generalize hstatus : Answer.done (.ok ()) = a at hstep1
  cases hstep1 with
  | create _ hcreate =>
    have hp2 := hp1.writes heager hwrites
    obtain ⟨p3, hstep3, hp3⟩ := hp2.step heager hclose
    generalize answer _ (.close h) = a at hstep3
    cases hstep3 with
    | commit hk =>
      obtain ⟨h0, hmax⟩ := Directory.create_ok hcreate
      have hfile : Slots.get (Slots.put _ _ _ hk) (cstr name) =
          some (SmallFile.append ⟨cstr name, []⟩ srcs.flatten) := by
        rw [Slots.get_put]
        exact Function.update_self ..
      exact hp3.readBack heager hrest hchange trivial (Directory.lookup_ok.mpr ⟨h0, hmax, hfile⟩) hidle
  | openRead hread _ =>
    rcases hopen.2.2 with ⟨-, hno⟩ | ⟨hno, -, -⟩
    · cases hwrite.symm.trans hno
    · cases hread.symm.trans hno
  | missing => cases hstatus
  | refused => cases hstatus

omit [Opts] in
theorem written_file_read_back_cleanRun :
    let w2 := ((@remount defaultOpts smallMount).run (formattedChip 14 2)).2
    ((@readBack defaultOpts 3 [0x61#8] 8).run
      ((writeRun ++ (.openFile 0 [0x61#8] writeFlags :: (List.map (Op.write 0) [[3#8], [4#8]] ++
        (.close 0 :: cleanRun)))).foldl (@stepOp defaultOpts) w2)).1 = .ok [3#8, 4#8] := by
  intro w2
  have hopened : ((@openFile defaultOpts 0 [0x61#8] writeFlags).run (writeRun.foldl (@stepOp defaultOpts) w2)).1 =
      .ok () := isOk_iff.mp (by decide +kernel)
  exact @written_file_read_back defaultOpts _ _ _ w2 writeRun cleanRun [[3#8], [4#8]] 0 3 8 [0x61#8] writeFlags rfl
    freshMounted_smallMount (by decide +kernel) rfl hopened (by decide) (List.isEmpty_iff.mp (by decide +kernel))

end Fastffs
