import Mathlib.Data.List.TakeWhile
import Fastffs.AbsentNames
import Fastffs.Lib.Slots
import Fastffs.Store

/-!
# Lookups in a store

A directory is a table of files: a name is looked for in the slots of its window.  `Serves`
says that a world holds the files of a directory, with no handle open.  Resolving a name then
tries the slots of its window, and reads the root of the file that it finds.
-/

namespace Fastffs

open Prog
open Nor (Byte Mem blank)

/-- Files by name, in the slots that the index gives them. -/
abbrev Directory := Slots (List Byte) Nat SmallFile SmallFile.name nameWindow

/-! ## The root of an entry -/

/-- What `fffs_read_file_root_md` reads of an entry. -/
def Entry.root (e : Entry) (useCache : Bool) : RootMd where
  name := e.file.name
  size := e.file.bytes.length
  payloadDataOff := e.md.dataOff + (e.file.name.length + 2)
  payloadDataLen := e.file.bytes.length
  next := 0
  spanLen := 1
  cached := if useCache then (e.file.image.take fileCacheSize).drop (e.file.name.length + 2) else []

section Root

variable {S c n s k : Nat} {es : List Entry} {e : Entry} {f : SmallFile} {w : World} {useCache : Bool}

theorem NameOk.image_eq (h : NameOk f.name) : f.image = byte f.name.length :: (f.name ++ 0#8 :: f.bytes) := by
  rw [SmallFile.image, h.prefix_eq]
  simp

/-- The first bytes of an extent. -/
theorem Filed.read_take (h : Filed S c n s es w) (he : e ∈ es) {k : Nat} (hk : k ≤ e.md.dataLen) :
    (flashRead (s * S + e.md.dataOff) k).run w = (.ok (e.file.image.take k), w) := by
  obtain ⟨hend, hle⟩ := h.length_le he
  rw [MdRecord.dataEnd] at hend
  have hp := h.recorded.place
  have hinside := hp.inside
  rw [Nat.succ_mul] at hinside
  rw [flashRead_run hp.plan (by omega), ← h.data e he]
  obtain ⟨rest, hrest⟩ := Nat.exists_eq_add_of_le hk
  rw [hrest, Nor.read_append, List.take_left' (Nor.length_read ..)]

/-- `read_root_prefix` of an entry. -/
theorem Filed.readPrefix (h : Filed S c n s es w) (hS : S ≤ 65536) (he : e ∈ es) :
    (readRootPrefix s e.md useCache).run w = (.ok (e.root useCache), w) := by
  have hw := h.whole e he
  have hname := hw.name
  have hlen := SmallFile.length_image hname
  have hpos := List.length_pos_of_ne_nil hname.nonempty
  have hshort := hname.short
  have hend := (h.length_le he).1
  have hle := h.recorded.free_le.trans h.recorded.stacked.lowest_le
  have hge := h.recorded.place.size_ge
  rw [sectorFooterSize] at hle
  rw [MdRecord.dataEnd] at hend
  have hdata := hw.len
  rw [readRootPrefix, bind_of_ok (run_getFs w), h.recorded.place.sectorSize, if_neg (by omega)]
  -- enough of the extent is read for the name and the length of the metadata after it
  generalize hn : min e.md.dataLen (if useCache then fileCacheSize else maxName + 2) = nread
  have hnread : e.file.name.length + 2 ≤ nread := by
    rw [← hn, maxName, fileCacheSize]
    rw [maxName] at hshort
    split <;> omega
  rw [bind_of_ok (h.read_take he (hn ▸ Nat.min_le_left _ _))]
  have hbuf : e.file.image.take nread =
      byte e.file.name.length :: (e.file.name ++ 0#8 :: e.file.bytes.take (nread - (e.file.name.length + 2))) := by
    rw [hname.image_eq, show nread = nread - (e.file.name.length + 2) + 1 + e.file.name.length + 1 by omega,
      List.take_succ_cons, Nat.add_comm _ e.file.name.length, List.take_length_add_append, List.take_succ_cons]
    congr 4
    omega
  have hfirst : (byteAt (e.file.image.take nread) 0).toNat = e.file.name.length := by
    rw [hbuf, byteAt, List.getD_cons_zero, byte, BitVec.toNat_ofNat, Nat.mod_eq_of_lt]
    rw [maxName] at hshort
    omega
  have hmeta : (byteAt (e.file.image.take nread) (1 + e.file.name.length)).toNat = 0 := by
    rw [hbuf, byteAt, Nat.add_comm 1, List.getD_cons_succ, List.getD_append_right _ _ _ _ le_rfl, Nat.sub_self]
    rfl
  dsimp only
  rw [hfirst, hmeta, if_neg (by omega), if_neg (by omega), run_pure]
  have hcached : (if useCache then (e.file.image.take nread).drop (1 + e.file.name.length + 1 + 0) else []) =
      (e.root useCache).cached := by
    rw [Entry.root]
    dsimp only
    split
    · next hcache =>
      rw [← hn, if_pos hcache, hdata, Nat.min_comm, ← List.take_eq_take_min]
      congr 1
      omega
    · rfl
  rw [hcached, hw.next, hw.span, hw.size, Entry.root, u16, Nat.mod_eq_of_lt (by omega), u16,
    Nat.mod_eq_of_lt (by omega), hbuf, List.drop_one, List.tail_cons, List.take_left]
  congr 4
  · omega
  · omega

end Root

/-! ## Resolving a name -/

/-- The root of the current entry of a slot. -/
def rootIn (st : Shelves Nat Nat Entry) (useCache : Bool) (k : Nat) : RootMd :=
  ((st.current k).map fun e => e.root useCache).getD noRoot

/-- What `fffs_index_resolve` finds in a directory. -/
def Directory.resolve (d : Directory) (head : Nat → Option Nat) (root : Nat → RootMd) (name : List Byte) :
    Except Status Resolved :=
  if (cstr name).length = 0 then .error .invalid
  else if (cstr name).length > maxName then .error .nameTooLong
  else
    match d.find (cstr name) with
    | some k => .ok ⟨k, (head k).map fun p => (p, root k)⟩
    | none => freeOutcome (d.free (cstr name))

theorem cstr_cstr (name : List Byte) : cstr (cstr name) = cstr name := List.takeWhile_idem

theorem nameWindow_cstr (name : List Byte) : nameWindow (cstr name) = nameWindow name := by
  rw [nameWindow, nameWindow, hash16, hash16, cstr_cstr]

section Resolve

variable [Opts] {S c n k p : Nat} {x : Prop} {d : Directory} {st : Shelves Nat Nat Entry} {bad : Nat → Prop}
  {w : World} {name : List Byte} {useCache : Bool}

/-- The current entry of a slot is in a data sector. -/
theorem Shelved.current (h : Shelved S c n st bad w) (ht : st.Tidy) (hk : st.head k = some p) :
    ∃ e ∈ st.items p, (st.items p).find? (Item.liveFor k) = some e ∧ st.current k = some e ∧
      Filed S c n p (st.items p) w := by
  obtain ⟨e, hfind, -⟩ := ht.find hk
  obtain ⟨hp, hgood, -⟩ := h.head_data ht hk
  refine ⟨e, List.mem_of_find?_eq_some hfind, hfind, ?_, h.filed p hp hgood⟩
  rw [Shelves.current, hk]
  exact hfind

/-- `fffs_read_file_root_md` of a current root. -/
theorem Shelved.readRootMd (h : Shelved S c n st bad w) (ht : st.Tidy) (hk : st.head k = some p) :
    ∃ e ∈ st.items p, st.current k = some e ∧ Filed S c n p (st.items p) w ∧
      (readFileRootMd p k).run w = (.ok e.md, w) := by
  obtain ⟨e, he, hfind, hcur, hf⟩ := h.current ht hk
  have hread : (readMdForSlot p k).run w = (.ok e.md, w) := by
    rw [hf.readMd k, hfind]
    rfl
  refine ⟨e, he, hcur, hf, ?_⟩
  rw [readFileRootMd, bind_of_ok hread, if_neg (not_not.mpr (hf.whole e he).type)]
  rfl

/-- `fffs_read_file_root_md` of a current root, with its prefix. -/
theorem Shelved.readRoot (h : Shelved S c n st bad w) (ht : st.Tidy) (hk : st.head k = some p) :
    (readFileRootMdPrefix p k useCache).run w = (.ok (rootIn st useCache k), w) := by
  obtain ⟨e, he, hcur, hf, hroot⟩ := h.readRootMd ht hk
  rw [readFileRootMdPrefix, bind_of_ok hroot, hf.readPrefix h.small he, rootIn, hcur]
  rfl

/-- The file of the current entry. -/
theorem Holds.current (h : Holds S c n x d.slot st bad w) (k : Nat) : d.slot k = (st.current k).map Entry.file := by
  rw [← h.get, st.get_eq]
  rfl

theorem Holds.head_iff (h : Holds S c n x d.slot st bad w) : st.head k = none ↔ d.slot k = none := by
  rw [← h.tidy.get_eq_none, h.get]

/-- The name of the root of a slot is the name of its file. -/
theorem Holds.named (h : Holds S c n x d.slot st bad w) {f : Nat → Nat} (hf : ∀ k, st.head k = headOf (f k)) :
    slotNamed f (rootIn st useCache) name k = d.holds (cstr name) k := by
  rw [Bool.eq_iff_iff, slotNamed_iff, Slots.holds_iff]
  have hhead : f k ≠ 0 ↔ d.slot k ≠ none := by
    rw [ne_eq, ne_eq, ← headOf_eq_none, ← hf, h.head_iff]
  rw [hhead, h.current, rootIn]
  cases hcur : st.current k with
  | none => simp
  | some e =>
    have hk : ∃ p, st.head k = some p := by
      refine Option.ne_none_iff_exists'.mp fun hnone => ?_
      rw [Shelves.current, hnone] at hcur
      cases hcur
    obtain ⟨p, hp⟩ := hk
    obtain ⟨e', he', -, hcur', hfiled⟩ := h.stored.toShelved.current h.tidy hp
    rw [hcur] at hcur'
    cases hcur'
    change _ ∧ cstr e.file.name = _ ↔ _
    rw [(hfiled.whole e he').name.cstr]
    simp

/-- `fffs_index_resolve`. -/
theorem Holds.resolve (h : Holds S c n x d.slot st bad w) (name : List Byte) (useCache : Bool) :
    (indexResolve name useCache).run w = (d.resolve st.head (rootIn st useCache) name, w) := by
  obtain ⟨logs, hlogs, hheads⟩ := h.stored.index
  have hread : RootsReadable w useCache (logMap logs.flatten) (rootIn st useCache) := by
    intro k hk
    have hp : st.head k = some (logMap logs.flatten k) := by rw [hheads, headOf, if_neg hk]
    exact h.stored.readRoot h.tidy hp
  have hnamed : ∀ k, slotNamed (logMap logs.flatten) (rootIn st useCache) name k = d.holds (cstr name) k :=
    fun k => h.named hheads
  have hone : OneNamed (logMap logs.flatten) (rootIn st useCache) name := by
    intro k j hk hj
    rw [hnamed, Slots.holds_iff] at hk hj
    obtain ⟨f, hf, hfname⟩ := hk
    obtain ⟨g, hg, hgname⟩ := hj
    exact d.unique hf hg (hfname.trans hgname.symm)
  have hopen : ∀ k, slotOpen w (logMap logs.flatten) k = (d.slot k).isNone := by
    intro k
    have hpin : slotIsPinned w k = false := by rw [slotIsPinned, h.idle, List.any_nil]
    rw [slotOpen, hpin, Bool.not_false, Bool.and_true, Bool.eq_iff_iff, beq_iff_eq, Option.isNone_iff_eq_none,
      ← headOf_eq_none, ← hheads, h.head_iff]
  rw [indexResolve_run hlogs.log hlogs.placed hlogs.cache hread hone]
  refine Prod.ext ?_ rfl
  rw [nameOutcome, Directory.resolve]
  dsimp only
  split
  · rfl
  · split
    · rfl
    · rw [resolveOutcome, ← nameWindow, ← nameWindow_cstr, Slots.find, Slots.free, Option.none_or]
      rw [show slotNamed (logMap logs.flatten) (rootIn st useCache) name = d.holds (cstr name) from funext hnamed,
        show slotOpen w (logMap logs.flatten) = fun k => (d.slot k).isNone from funext hopen]
      cases hfind : (nameWindow (cstr name)).find? (d.holds (cstr name)) with
      | none => rfl
      | some k =>
        have hk : logMap logs.flatten k ≠ 0 := by
          obtain ⟨f, hf, -⟩ := Slots.holds_iff.mp (List.find?_some hfind)
          intro h0
          rw [h.head_iff.mp ((hheads k).trans (headOf_eq_none.mpr h0))] at hf
          cases hf
        dsimp only
        rw [hheads, headOf, if_neg hk]
        rfl

/-- The file of a name, or the status of a lookup that does not find it. -/
def Directory.lookup (d : Directory) (name : List Byte) : Except Status SmallFile :=
  if (cstr name).length = 0 then .error .invalid
  else if (cstr name).length > maxName then .error .nameTooLong
  else
    match d.get (cstr name) with
    | some f => .ok f
    | none => .error (if (d.free (cstr name)).isSome then .notFound else .noSpace)

omit [Opts] in
theorem nameOk_cstr (h0 : ¬ (cstr name).length = 0) (hmax : ¬ (cstr name).length > maxName) : NameOk (cstr name) :=
  ⟨cstr_cstr name, List.ne_nil_of_length_pos (Nat.pos_of_ne_zero h0), Nat.le_of_not_gt hmax⟩

/-- A lookup, and what `fffs_index_resolve` returns for it. -/
inductive Looked (d : Directory) (st : Shelves Nat Nat Entry) (name : List Byte) (useCache : Bool) :
    Except Status SmallFile → Except Status Resolved → Prop where
  | refused {err : Status} : err ≠ .notFound → Looked d st name useCache (.error err) (.error err)
  | absent {k : Nat} : NameOk (cstr name) → d.find (cstr name) = none → d.free (cstr name) = some k →
      Looked d st name useCache (.error .notFound) (.ok ⟨k, none⟩)
  | present {k p : Nat} {e : Entry} : NameOk (cstr name) → d.find (cstr name) = some k → st.head k = some p →
      st.current k = some e → Looked d st name useCache (.ok e.file) (.ok ⟨k, some (p, e.root useCache)⟩)

/-- The cases of a lookup. -/
theorem Holds.looked (h : Holds S c n x d.slot st bad w) (name : List Byte) (useCache : Bool) :
    ∃ r, Looked d st name useCache (d.lookup name) r ∧ (indexResolve name useCache).run w = (r, w) := by
  refine ⟨_, ?_, h.resolve name useCache⟩
  rw [Directory.lookup, Directory.resolve]
  split
  · exact .refused fun hno => by cases hno
  · next h0 =>
    split
    · exact .refused fun hno => by cases hno
    · next hmax =>
      have hok := nameOk_cstr h0 hmax
      cases hfind : d.find (cstr name) with
      | none =>
        rw [Slots.get_eq_none.mpr hfind]
        dsimp only
        cases hfree : d.free (cstr name) with
        | none => exact .refused fun hno => by cases hno
        | some k => exact .absent hok hfind hfree
      | some k =>
        obtain ⟨f, hf, -⟩ := Slots.find_eq_some.mp hfind
        have hget : d.get (cstr name) = some f := by rw [Slots.get, hfind, Option.bind_some, hf]
        obtain ⟨e, he, hfile⟩ := Option.map_eq_some_iff.mp ((h.current k).symm.trans hf)
        obtain ⟨p, hp⟩ : ∃ p, st.head k = some p := by
          refine Option.ne_none_iff_exists'.mp fun hnone => ?_
          rw [h.head_iff.mp hnone] at hf
          cases hf
        rw [hget]
        dsimp only
        rw [hp, rootIn, he, ← hfile]
        exact .present hok hfind hp he

/-- `fffs_stat`. -/
theorem Holds.stat_run (h : Holds S c n x d.slot st bad w) (name : List Byte) :
    (stat name).run w = ((d.lookup name).map fun f => ⟨f.name, f.bytes.length⟩, w) := by
  obtain ⟨r, hlooked, hrun⟩ := h.looked name false
  rw [stat]
  generalize d.lookup name = found at hlooked
  cases hlooked with
  | refused => rw [bind_of_error hrun]; rfl
  | absent => rw [bind_of_ok hrun]; rfl
  | @present k p e _ _ hp he =>
    obtain ⟨e', he', -, hcur', hfiled⟩ := h.stored.toShelved.current h.tidy hp
    rw [he] at hcur'
    cases hcur'
    rw [bind_of_ok hrun]
    change (Except.ok (Stat.mk (cstr e.file.name) e.file.bytes.length), w) = _
    rw [(hfiled.whole e he').name.cstr]
    rfl

/-- `fffs_exists`. -/
theorem Holds.exists_run (h : Holds S c n x d.slot st bad w) (name : List Byte) :
    (exists_ name).run w =
      (match d.lookup name with
        | .ok _ => .ok true
        | .error .notFound => .ok false
        | .error e => .error e, w) := by
  rw [exists_, bind_of_ok (by rw [run_attempt, h.stat_run name])]
  cases d.lookup name with
  | ok f => rfl
  | error e => cases e <;> rfl

end Resolve

/-! ## A read handle -/

/-- The handle reads the entry of the sector, and is at `pos`. -/
structure File.Reads (f : File) (s : Nat) (e : Entry) (pos : Nat) : Prop where
  closed : f.closed = false
  access : f.access = .rdonly
  slot : f.slot = e.md.slot
  head : f.head = s
  current : f.current = s
  dataOffset : f.dataOffset = e.md.dataOff + (e.file.name.length + 2)
  dataLen : f.currentDataLen = e.file.bytes.length
  size : f.size = e.file.bytes.length
  fileOffset : f.currentFileOffset = 0
  cursor : f.pos = pos
  dataPos : f.currentDataPos = pos
  pos_le : pos ≤ e.file.bytes.length
  cache : f.cache = (e.file.bytes.drop f.cacheDataPos).take f.cache.length

/-- The world holds the files of the directory, and the one open handle reads the entry. -/
structure ReadsAt [Opts] (S c n : Nat) (x : Prop) (d : Directory) (h : Nat) (st : Shelves Nat Nat Entry)
    (bad : Nat → Prop) (s : Nat) (e : Entry) (pos : Nat) (w : World) : Prop where
  openFiles : w.fs.openFiles = [h]
  stored : Stored S c n st bad w
  tidy : st.Tidy
  exact : x → st.Exact
  get : st.get = d.slot
  head : st.head e.md.slot = some s
  current : st.current e.md.slot = some e
  file : (w.files h).Reads s e pos

/-- A handle of the world reads the file, and is at `pos`. -/
def Reading [Opts] (S c n : Nat) (x : Prop) (d : Directory) (h : Nat) (f : SmallFile) (pos : Nat) (w : World) : Prop :=
  ∃ st bad s e, e.file = f ∧ ReadsAt S c n x d h st bad s e pos w

section Reading

variable [Opts] {S c n s h pos want : Nat} {x : Prop} {d : Directory} {st : Shelves Nat Nat Entry}
  {bad : Nat → Prop} {e : Entry} {w : World} {g : File → File}

theorem ReadsAt.moveFile (hr : ReadsAt S c n x d h st bad s e pos w) (g : File → File) (pos' : Nat)
    (hg : (g (w.files h)).Reads s e pos') : ReadsAt S c n x d h st bad s e pos' ((modifyFile h g).run w).2 := by
  refine { hr with
    openFiles := hr.openFiles
    stored := hr.stored.ofSame (fun _ => ⟨id, rfl, rfl, fun _ _ => rfl, rfl⟩) hr.stored.walk
    file := ?_ }
  change File.Reads (if h = h then g (w.files h) else w.files h) s e pos'
  rw [if_pos rfl]
  exact hg

/-- The entry is in the sector. -/
theorem ReadsAt.filed (hr : ReadsAt S c n x d h st bad s e pos w) :
    e ∈ st.items s ∧ Filed S c n s (st.items s) w := by
  obtain ⟨e', he, -, hcur, hf⟩ := hr.stored.toShelved.current hr.tidy hr.head
  rw [hr.current] at hcur
  cases hcur
  exact ⟨he, hf⟩

/-- The bytes of the file from a position on. -/
theorem ReadsAt.readAt (hr : ReadsAt S c n x d h st bad s e pos w) {k : Nat} (hk : pos + k ≤ e.file.bytes.length) :
    (flashRead ((w.files h).dataAddress w.fs) k).run w = (.ok ((e.file.bytes.drop pos).take k), w) := by
  obtain ⟨he, hf⟩ := hr.filed
  have hw := hf.whole e he
  have hlen := hw.len
  rw [SmallFile.length_image hw.name] at hlen
  have haddr : (w.files h).dataAddress w.fs = s * S + e.md.dataOff + (e.file.name.length + 2 + pos) := by
    rw [File.dataAddress, hr.file.current, hr.file.dataOffset, hr.file.dataPos, hr.stored.sectorSize]
    omega
  have hall := hf.data e he
  have hsplit : e.md.dataLen = (e.file.name.length + 2 + pos) + (k + (e.file.bytes.length - pos - k)) := by omega
  have hp := hf.recorded.place
  have hinside := hp.inside
  rw [Nat.succ_mul] at hinside
  obtain ⟨hend, hle⟩ := hf.length_le he
  rw [MdRecord.dataEnd] at hend
  rw [haddr, flashRead_run hp.plan (by omega)]
  rw [hsplit, Nor.read_append _ _ (e.file.name.length + 2 + pos), Nor.read_append _ _ k] at hall
  have hdrop := congrArg (List.drop (e.file.name.length + 2 + pos)) hall
  rw [List.drop_left' (Nor.length_read ..), SmallFile.image, ← List.drop_drop,
    List.drop_left' hw.name.length_prefix] at hdrop
  have htake := congrArg (List.take k) hdrop
  rw [List.take_left' (Nor.length_read ..)] at htake
  rw [htake]

/-- One round of `fffs_read`. -/
theorem ReadsAt.round (hr : ReadsAt S c n x d h st bad s e pos w) (hpos : 0 < want)
    (hwant : pos + want ≤ e.file.bytes.length) : ∃ k w', 0 < k ∧ k ≤ want ∧
      (readRound h want).run w = (.ok ((e.file.bytes.drop pos).take k), w') ∧
      ReadsAt S c n x d h st bad s e pos w' := by
  have hf := hr.file
  have hmin : min want ((w.files h).currentDataLen - (w.files h).currentDataPos) = want := by
    rw [hf.dataLen, hf.dataPos]
    omega
  rw [readRound, bind_of_ok (run_get w)]
  dsimp only
  rw [hmin]
  split
  · next hcached =>
    -- the cache holds the position
    rw [readCacheHasRemaining, Bool.and_eq_true, Bool.and_eq_true, bne_iff_ne, decide_eq_true_eq,
      decide_eq_true_eq, hf.dataPos] at hcached
    obtain ⟨⟨-, hlow⟩, hhigh⟩ := hcached
    have hcache := hf.cache
    generalize (w.files h).cache.length = len at hcache hhigh
    refine ⟨min want ((w.files h).cacheDataPos + len - pos), w, by omega, Nat.min_le_left _ _, ?_, hr⟩
    rw [hf.dataPos]
    refine Prod.ext (congrArg Except.ok ?_) rfl
    rw [hcache, List.drop_take, List.drop_drop, List.take_take]
    congr 1
    · omega
    · congr 1
      omega
  · split
    · next hsmall =>
      -- the cache is filled from the flash
      have hfill := hr.readAt (k := min (e.file.bytes.length - pos) fileCacheSize) (by omega)
      have hbytes : ((e.file.bytes.drop pos).take (min (e.file.bytes.length - pos) fileCacheSize)).length =
          min (e.file.bytes.length - pos) fileCacheSize := by
        rw [List.length_take, List.length_drop]
        omega
      have hnext := hr.moveFile (fun f => { f with
          cacheDataPos := f.currentDataPos
          cache := (e.file.bytes.drop pos).take (min (e.file.bytes.length - pos) fileCacheSize) }) pos
        { hf with cache := by rw [hbytes, hf.dataPos] }
      refine ⟨want, _, hpos, le_rfl, ?_, hnext⟩
      have hfilled : (fillReadCache h).run w = (.ok (), ((modifyFile h fun f => { f with
          cacheDataPos := f.currentDataPos
          cache := (e.file.bytes.drop pos).take (min (e.file.bytes.length - pos) fileCacheSize) }).run w).2) := by
        rw [fillReadCache, bind_of_ok (run_get w), bind_of_ok (by rw [run_attempt, hf.dataLen, hf.dataPos, hfill])]
        rfl
      rw [bind_of_ok hfilled, bind_of_ok (run_getFile h _)]
      change (Except.ok ((if h = h then _ else w.files h : File).cache.take want), _) = _
      rw [if_pos rfl]
      refine Prod.ext (congrArg Except.ok ?_) rfl
      dsimp only
      rw [List.take_take]
      congr 1
      omega
    · have hnext := hr.moveFile (fun f => { f with cache := [] }) pos
        { hf with cache := by simp }
      refine ⟨want, _, hpos, le_rfl, ?_, hnext⟩
      rw [bind_of_ok (run_modifyFile ..)]
      have hread := hnext.readAt (k := want) hwant
      have haddr : (((modifyFile h fun f => { f with cache := [] }).run w).2.files h).dataAddress w.fs =
          (w.files h).dataAddress w.fs := by
        change (if h = h then _ else w.files h : File).dataAddress w.fs = _
        rw [if_pos rfl]
        rfl
      rw [← haddr]
      exact hread

/-- The loop of `fffs_read` delivers the bytes from the position of the handle on. -/
theorem ReadsAt.loop {fuel : Nat} (hr : ReadsAt S c n x d h st bad s e pos w) (hfuel : want < fuel)
    (hsmall : e.file.bytes.length < 4294967296) (hwant : pos + want ≤ e.file.bytes.length) :
    ∃ w', (readLoop h fuel want).run w = (.ok ((e.file.bytes.drop pos).take want), w') ∧
      ReadsAt S c n x d h st bad s e (pos + want) w' := by
  induction fuel generalizing want pos w with
  | zero => omega
  | succ fuel ih =>
    rw [readLoop]
    by_cases h0 : want = 0
    · rw [if_pos h0]
      subst h0
      exact ⟨w, rfl, hr⟩
    · have hnext : (readNextExtent h).run w = (.ok (), w) := by
        rw [readNextExtent, bind_of_ok (run_getFile h w), if_neg]
        · rfl
        · rw [hr.file.dataPos, hr.file.dataLen]
          omega
      obtain ⟨k, w1, hk, hle, hround, hr1⟩ := hr.round (Nat.pos_of_ne_zero h0) hwant
      have hlen : ((e.file.bytes.drop pos).take k).length = k := by
        rw [List.length_take, List.length_drop]
        omega
      have hr2 := hr1.moveFile (fun f => { f with
          currentDataPos := u32 (f.currentDataPos + k), pos := u32 (f.pos + k) }) (pos + k)
        { hr1.file with
          cursor := by rw [hr1.file.cursor]; exact Nat.mod_eq_of_lt (by omega)
          dataPos := by rw [hr1.file.dataPos]; exact Nat.mod_eq_of_lt (by omega)
          pos_le := by omega }
      obtain ⟨w', hrest, hr'⟩ := ih hr2 (show want - k < fuel by omega) (by omega)
      refine ⟨w', ?_, by rwa [show pos + k + (want - k) = pos + want by omega] at hr'⟩
      rw [if_neg h0, bind_of_ok hnext, bind_of_ok hround, hlen, bind_of_ok (run_modifyFile ..)]
      change (readLoop h fuel (want - k) >>= _).run ((modifyFile h fun f => { f with
          currentDataPos := u32 (f.currentDataPos + k), pos := u32 (f.pos + k) }).run w1).2 = _
      rw [bind_of_ok hrest, run_pure]
      refine Prod.ext (congrArg Except.ok ?_) rfl
      obtain ⟨rest, rfl⟩ := Nat.exists_eq_add_of_le hle
      rw [Nat.add_sub_cancel_left, ← List.drop_drop, ← List.take_add]

/-- A small file has a size that fits into the fields of a handle. -/
theorem ReadsAt.small (hr : ReadsAt S c n x d h st bad s e pos w) : e.file.bytes.length < 4294967296 := by
  obtain ⟨he, hf⟩ := hr.filed
  have hw := hf.whole e he
  have hlen := hw.len
  rw [SmallFile.length_image hw.name] at hlen
  obtain ⟨hend, hle⟩ := hf.length_le he
  rw [MdRecord.dataEnd] at hend
  have hS := hr.stored.small
  omega

variable {f : SmallFile}

/-- `fffs_read` delivers the bytes from the position of the handle on, as many as are asked for
or as are left. -/
theorem Reading.read_run (hr : Reading S c n x d h f pos w) (size : Nat) :
    ∃ w', (read h size).run w = (.ok ((f.bytes.drop pos).take size), w') ∧
      Reading S c n x d h f (min (pos + size) f.bytes.length) w' := by
  obtain ⟨st, bad, s, e, rfl, hr⟩ := hr
  have hf := hr.file
  have hpos := hf.pos_le
  have hsmall := hr.small
  have hfuel : ∀ want sectors, want < (want + 1) * (sectors + 2) := fun want sectors => by nlinarith
  obtain ⟨w', hrun, hr'⟩ := hr.loop
    (hfuel (min size (e.file.bytes.length - pos)) w.fs.sectorCount) hsmall (by omega)
  refine ⟨w', ?_, st, bad, s, e, rfl, by rwa [show pos + min size (e.file.bytes.length - pos) =
    min (pos + size) e.file.bytes.length by omega] at hr'⟩
  rw [read, bind_of_ok (run_get w)]
  dsimp only
  rw [if_neg (fun hno => by
    rcases hno with hno | hno
    · rw [hf.closed] at hno
      cases hno
    · exact hno hf.access), hf.size, hf.cursor, hrun]
  rw [List.take_eq_take_min (i := size), List.length_drop]

/-- The end of `fffs_seek`, for a target. -/
theorem ReadsAt.seek_run (hr : ReadsAt S c n x d h st bad s e pos w) (target : Int) :
    let go : M Nat :=
      if target < 0 ∨ target > e.file.bytes.length then Prog.throw .range
      else do
        seekReadPosition h target.toNat
        let file ← getFile h
        pure file.pos
    (target < 0 ∨ target > e.file.bytes.length) ∧ go.run w = (.error .range, w) ∨
      ∃ (k : Nat) (w' : World), target = k ∧ go.run w = (.ok k, w') ∧ ReadsAt S c n x d h st bad s e k w' := by
  intro go
  have hf := hr.file
  by_cases hrange : target < 0 ∨ target > e.file.bytes.length
  · exact .inl ⟨hrange, by rw [show go = Prog.throw .range from if_pos hrange]; rfl⟩
  · obtain ⟨k, rfl⟩ := Int.eq_ofNat_of_zero_le (Int.not_lt.mp fun hneg => hrange (.inl hneg))
    have hk : k ≤ e.file.bytes.length := Int.ofNat_le.mp (Int.not_lt.mp fun hgt => hrange (.inr hgt))
    have hmoved := hr.moveFile (fun f => { f with currentDataPos := k - f.currentFileOffset, pos := k }) k
      { hf with
        cursor := rfl
        dataPos := by rw [hf.fileOffset]; rfl
        pos_le := hk }
    have hrun : (seekReadPosition h k).run w = (.ok (), ((modifyFile h fun f =>
        { f with currentDataPos := k - f.currentFileOffset, pos := k }).run w).2) := by
      have hback : ¬ k < (w.files h).currentFileOffset := by
        rw [hf.fileOffset]
        exact Nat.not_lt_zero k
      have hahead : ¬ k > u32 ((w.files h).currentFileOffset + (w.files h).currentDataLen) := by
        rw [hf.fileOffset, hf.dataLen, Nat.zero_add, u32, Nat.mod_eq_of_lt hr.small]
        omega
      have hcount : ∃ m, w.fs.sectorCount = m + 1 := by
        obtain ⟨he, hfiled⟩ := hr.filed
        have hlt := hfiled.recorded.place.lt
        rw [hr.stored.sectorCount]
        exact ⟨c - 1, by omega⟩
      obtain ⟨m, hm⟩ := hcount
      rw [seekReadPosition, bind_of_ok (run_get w), hm, when_neg hback]
      change (seekLoop h k (m + 1)).run w = _
      rw [seekLoop, bind_of_ok (run_getFile h w), if_neg hahead]
      rfl
    refine .inr ⟨k, _, rfl, ?_, hmoved⟩
    rw [show go = _ from if_neg hrange, Int.toNat_natCast, bind_of_ok hrun, bind_of_ok (run_getFile h _), run_pure]
    refine Prod.ext (congrArg Except.ok ?_) rfl
    exact hmoved.file.cursor

/-- The target of `fffs_seek`. -/
def seekGoal (f : SmallFile) (pos : Nat) (offset : Int) : Whence → Int
  | .set => 0 + offset
  | .cur => pos + offset
  | .end => f.bytes.length + offset

/-- `fffs_seek` takes a handle to any place of the file, and refuses every other. -/
theorem Reading.seek_run (hr : Reading S c n x d h f pos w) (offset : Int) (whence : Whence) :
    (seekGoal f pos offset whence < 0 ∨ seekGoal f pos offset whence > f.bytes.length) ∧
        (seek h offset whence).run w = (.error .range, w) ∨
      ∃ (target : Nat) (w' : World), seekGoal f pos offset whence = target ∧
        (seek h offset whence).run w = (.ok target, w') ∧ Reading S c n x d h f target w' := by
  obtain ⟨st, bad, s, e, rfl, hr⟩ := hr
  have hf := hr.file
  have hopen : ¬ ((w.files h).closed = true ∨ (w.files h).access ≠ .rdonly) := by
    rw [hf.closed, hf.access]
    decide
  have hseek : (seek h offset whence).run w = ((do
      if seekGoal e.file pos offset whence < 0 ∨ seekGoal e.file pos offset whence > e.file.bytes.length then
        Prog.throw .range
      else
        seekReadPosition h (seekGoal e.file pos offset whence).toNat
        let file ← getFile h
        pure file.pos : M Nat)).run w := by
    rw [seek, bind_of_ok (run_getFile h w), if_neg hopen, hf.size, hf.cursor]
    cases whence <;> rfl
  rw [hseek]
  refine (hr.seek_run (seekGoal e.file pos offset whence)).imp id fun hok => ?_
  obtain ⟨k, w', htarget, hrun, hr'⟩ := hok
  exact ⟨k, w', htarget, hrun, st, bad, s, e, rfl, hr'⟩

/-- `fffs_fstat` of a handle that reads. -/
theorem Reading.fstat_run (hr : Reading S c n x d h f pos w) :
    (fstat h).run w = (.ok ⟨f.name, f.bytes.length⟩, w) := by
  obtain ⟨st, bad, s, e, rfl, hr⟩ := hr
  have hf := hr.file
  obtain ⟨he, hfiled⟩ := hr.filed
  have hroot := @Shelved.readRoot _ _ _ _ _ _ _ _ _ false hr.stored.toShelved hr.tidy hr.head
  rw [rootIn, hr.current] at hroot
  rw [fstat, bind_of_ok (run_getFile h w), if_neg (by rw [hf.closed]; decide), hf.access]
  dsimp only
  rw [hf.head, hf.slot, bind_of_ok hroot]
  change (Except.ok (Stat.mk (cstr e.file.name) e.file.bytes.length), w) = _
  rw [(hfiled.whole e he).name.cstr]

/-- The files stay when a handle changes that is not open. -/
theorem Holds.setFile {F : Nat → Option SmallFile} (hh : Holds S c n x F st bad w) :
    Holds S c n x F st bad ((modifyFile h g).run w).2 :=
  { hh with
    idle := hh.idle
    stored := hh.stored.ofSame (fun _ => ⟨id, rfl, rfl, fun _ _ => rfl, rfl⟩) hh.stored.walk }

omit [Opts] in
/-- The handle that `fffs_open` fills is at the start of the file. -/
theorem File.ofRoot_reads (hw : e.Whole) : (File.ofRoot e.md.slot s (e.root true) e.md.spanLen).Reads s e 0 where
  closed := rfl
  access := rfl
  slot := rfl
  head := rfl
  current := rfl
  dataOffset := rfl
  dataLen := rfl
  size := rfl
  fileOffset := rfl
  cursor := rfl
  dataPos := rfl
  pos_le := Nat.zero_le _
  cache := by
    have hcached : (File.ofRoot e.md.slot s (e.root true) e.md.spanLen).cache =
        e.file.bytes.take (fileCacheSize - (e.file.name.length + 2)) := by
      change (e.file.image.take fileCacheSize).drop (e.file.name.length + 2) = _
      rw [List.drop_take, SmallFile.image, List.drop_left' hw.name.length_prefix]
    rw [hcached, List.length_take]
    exact List.take_eq_take_min ..

/-- `fffs_open` for reading. -/
theorem Kept.openRead_run (hk : Kept S c n x d.slot w) (h : Nat) (name : List Byte) {flags : OpenFlags}
    (hread : flags.rdonly = true) (hwrite : flags.wronly = false) (hknown : flags.unknown = false) :
    (∃ err w', d.lookup name = .error err ∧ (openFile h name flags).run w = (.error err, w') ∧
        Kept S c n x d.slot w') ∨
      ∃ f w', d.lookup name = .ok f ∧ (openFile h name flags).run w = (.ok (), w') ∧
        Reading S c n x d h f 0 w' := by
  obtain ⟨st, bad, hh⟩ := hk
  have hh0 := hh.setFile (h := h) (g := fun _ => { closed := false })
  have hclear : (modifyFile h fun _ => { closed := false }).run w =
    (.ok (), ((modifyFile h fun _ => { closed := false }).run w).2) := rfl
  generalize ((modifyFile h fun _ => { closed := false }).run w).2 = w0 at hh0 hclear
  obtain ⟨r, hlooked, hrun⟩ := hh0.looked name true
  rw [openFile, bind_of_ok hclear, if_neg (by rw [hread, hwrite, hknown]; decide), hread]
  generalize d.lookup name = found at hlooked
  cases hlooked with
  | refused => exact .inl ⟨_, _, rfl, bind_of_error hrun, st, bad, hh0⟩
  | absent => exact .inl ⟨_, _, rfl, by rw [bind_of_ok hrun]; rfl, st, bad, hh0⟩
  | @present k p e hname hfind hp he =>
    obtain ⟨e', hmem, hfound, hcur, hfiled⟩ := hh0.stored.toShelved.current hh0.tidy hp
    rw [he] at hcur
    cases hcur
    obtain rfl : e.md.slot = k := (Item.liveFor_iff.mp (List.find?_some hfound)).2
    have hrecord : (readMdForSlot p e.md.slot).run w0 = (.ok e.md, w0) := by
      rw [hfiled.readMd, hfound]
      rfl
    have hstored := hh0.setFile (h := h) (g := fun _ => File.ofRoot e.md.slot p (e.root true) e.md.spanLen)
    refine .inr ⟨e.file, ((do
      modifyFile h fun _ => File.ofRoot e.md.slot p (e.root true) e.md.spanLen
      registerOpenFile h : M Unit).run w0).2, rfl, ?_, st, bad, p, e, rfl, ?_⟩
    · rw [bind_of_ok hrun]
      dsimp only
      rw [if_neg (by rw [hwrite]; exact fun hno => by cases hno.1), if_pos rfl, openRead, bind_of_ok hrecord]
      rfl
    · refine ⟨?_, hstored.stored.setFs rfl hstored.stored.walk, hh0.tidy, hh0.exact, hh0.get, hp, he, ?_⟩
      · change h :: w0.fs.openFiles = [h]
        rw [hh0.idle]
      · change File.Reads (if h = h then _ else w0.files h) p e 0
        rw [if_pos rfl]
        exact File.ofRoot_reads (hfiled.whole e hmem)

/-- `fffs_close` of a handle that reads. -/
theorem Reading.close_run (hr : Reading S c n x d h f pos w) :
    ∃ w', (close h).run w = (.ok (), w') ∧ Kept S c n x d.slot w' := by
  obtain ⟨st, bad, s, e, rfl, hr⟩ := hr
  have hf := hr.file
  have hholds : Holds S c n x d.slot st bad ((unregisterOpenFile h).run w).2 := by
    refine ⟨?_, hr.stored.setFs rfl hr.stored.walk, hr.tidy, hr.exact, hr.get⟩
    change w.fs.openFiles.erase h = []
    rw [hr.openFiles, List.erase_cons_head]
  refine ⟨_, ?_, st, bad, hholds.setFile (h := h) (g := fun f => { f with closed := true })⟩
  rw [close, bind_of_ok (run_getFile h w), if_neg (by rw [hf.closed]; decide),
    if_neg (by rw [hf.access]; decide)]
  rfl

end Reading

end Fastffs
