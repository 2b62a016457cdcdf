import Fastffs.StoreRead

/-!
# Directories of a store

The three index backends walk their entries in different orders, and `fffs_dir_read` reads the
root of each entry and passes the ones whose name does not have the prefix.  `Enumerates` says
which index records a walk yields, `DirReads` which files a directory handle yields.  In a
store these are the files with the prefix, each once.
-/

namespace Fastffs

open Prog
open Nor (Byte)

variable [Opts]

/-! ## The walk of the index -/

/-- Reading on from the cursor yields the records, and then ends. -/
def Enumerates (w : World) : IndexIter → List IndexRecord → Prop
  | it, [] => ∃ it', (indexIterRead it).run w = (.ok (none, it'), w)
  | it, r :: rs => ∃ it', (indexIterRead it).run w = (.ok (some r, it'), w) ∧ Enumerates w it' rs

section Index

variable {w : World} {logs : List (List IndexRecord)} {it : IndexIter} {rs : List IndexRecord}

/-- A build with a cache does not read the flash for a record. -/
theorem IterReads.enumerates (h : IterReads w it rs)
    (hsame : ∀ it, (Windowed.indexIterRead it).run w = (indexIterRead it).run w) : Enumerates w it rs := by
  induction rs generalizing it with
  | nil =>
    obtain ⟨it', hrun⟩ := h
    exact ⟨it', (hsame it).symm.trans hrun⟩
  | cons r rs ih =>
    obtain ⟨it', hrun, hrest⟩ := h
    exact ⟨it', (hsame it).symm.trans hrun, ih hrest⟩

omit [Opts] in
/-- `current_index_entry_read`, for a cursor at place `j` of sector `k`. -/
theorem currentIndexEntryRead_run (h : LogOn w logs) {k j : Nat} (hseq : it.cursorSeqPos = k)
    (hoff : (if it.cursorSeqPos = 0 ∧ it.cursorOffset = 0 then
      indexSectorBegin w.fs (logicalIndexSector w.fs 0) else it.cursorOffset) = logBegin w.fs k + 4 * j) :
    (currentIndexEntryRead it).run w =
      (currentEntryLoop (logs.length - k) k (logBegin w.fs k + 4 * j) it).run w := by
  rw [currentIndexEntryRead, bind_of_ok (run_getFs w)]
  dsimp only
  rw [hoff, hseq, h.count]

/-- A build without a cache yields the current records of the rest of the log. -/
theorem enumerates_log (hmode : Opts.indexCacheMode = .none) (h : LogOn w logs) (hp : LogPlaced w) {n k j : Nat}
    (hk : k < logs.length) (hj : j ≤ searched w logs k)
    (hread : (currentIndexEntryRead it).run w =
      (currentEntryLoop (logs.length - k) k (logBegin w.fs k + 4 * j) it).run w)
    (hn : (currentRecords (logFrom logs k j)).length ≤ n) :
    Enumerates w it (currentRecords (logFrom logs k j)) := by
  have hplain : ∀ it, (indexIterRead it).run w = (currentIndexEntryRead it).run w := by
    intro it
    rw [indexIterRead, bind_of_ok (run_getFs w), hmode]
  induction n generalizing k j it with
  | zero =>
    rcases @currentEntryLoop_run _ _ h hp _ _ _ it (show k + (logs.length - k) = logs.length by omega) fun _ => hj with
      ⟨r, it', k', j', -, -, -, -, -, hcur⟩ | ⟨it', hrun, hnil⟩
    · rw [hcur, List.length_cons] at hn
      omega
    · rw [hnil (by omega)]
      exact ⟨it', (hplain it).trans (hread.trans hrun)⟩
  | succ n ih =>
    rcases @currentEntryLoop_run _ _ h hp _ _ _ it (show k + (logs.length - k) = logs.length by omega) fun _ => hj with
      ⟨r, it', k', j', hrun, hseq', hoff', hk', hj', hcur⟩ | ⟨it', hrun, hnil⟩
    · rw [hcur, List.length_cons] at hn
      have hbegin : 0 < logBegin w.fs k' := by
        rw [logBegin, indexSectorBegin, headerSize]
        omega
      have hread' := @currentIndexEntryRead_run _ _ it' h _ j' hseq'
        (by rw [if_neg fun h0 => by omega, hoff'])
      rw [hcur]
      exact ⟨it', (hplain it).trans (hread.trans hrun), ih hk' hj' hread' (by omega)⟩
    · rw [hnil (by omega)]
      exact ⟨it', (hplain it).trans (hread.trans hrun)⟩

/-- Every backend yields each live slot once. -/
theorem enumerates_lists (h : LogOn w logs) (hp : LogPlaced w) (hc : CacheIs w.fs (logMap logs.flatten)) :
    ∃ rs, Enumerates w {} rs ∧ Lists (logMap logs.flatten) rs := by
  cases hmode : Opts.indexCacheMode with
  | none =>
    have hpos : 0 < logs.length := h.count ▸ hp.count_pos
    have hflat : logFrom logs 0 0 = logs.flatten := by
      rw [logFrom, List.drop_zero, ← List.flatten_cons, ← drop_logs hpos, List.drop_zero]
    refine ⟨currentRecords (logFrom logs 0 0), ?_, by rw [hflat]; exact currentRecords_lists _⟩
    exact enumerates_log hmode h hp hpos (Nat.zero_le _)
      (currentIndexEntryRead_run h rfl (if_pos ⟨rfl, rfl⟩)) le_rfl
  | hashHeads =>
    obtain ⟨rs, hreads, hlists⟩ := indexIter_lists h hp hc
    exact ⟨rs, hreads.enumerates fun it => by rw [Windowed.indexIterRead, hmode], hlists⟩
  | fullSlotHeads =>
    obtain ⟨rs, hreads, hlists⟩ := indexIter_lists h hp hc
    exact ⟨rs, hreads.enumerates fun it => by rw [Windowed.indexIterRead, hmode], hlists⟩

end Index

/-! ## The reads of a directory -/

/-- Reading on from the directory handle yields the files, and then ends. -/
def DirReads (w : World) : Dir → List Stat → Prop
  | dir, [] => ∃ dir', (dirRead dir).run w = (.ok (none, dir'), w)
  | dir, st :: rest => ∃ dir', (dirRead dir).run w = (.ok (some st, dir'), w) ∧ DirReads w dir' rest

/-- What `fffs_dir_read` makes of a file. -/
def SmallFile.stat (f : SmallFile) : Stat := ⟨f.name, f.bytes.length⟩

section Directory

variable {w : World} {dir : Dir} {rs : List IndexRecord} {file : Nat → SmallFile}

/-- The root of the record is that of the file. -/
def RootIs (w : World) (file : Nat → SmallFile) (r : IndexRecord) : Prop :=
  ∃ root, (readFileRootMdPrefix r.head r.slot false).run w = (.ok root, w) ∧
    cstr root.name = (file r.slot).name ∧ root.size = (file r.slot).bytes.length

/-- The files with the prefix. -/
def withPrefix (pfx : List Byte) (file : Nat → SmallFile) (rs : List IndexRecord) : List SmallFile :=
  (rs.map fun r => file r.slot).filter fun f => pfx.isPrefixOf f.name

omit [Opts] in
theorem withPrefix_cons (pfx : List Byte) (file : Nat → SmallFile) (r : IndexRecord) (rs : List IndexRecord) :
    withPrefix pfx file (r :: rs) =
      if pfx.isPrefixOf (file r.slot).name then file r.slot :: withPrefix pfx file rs else withPrefix pfx file rs := by
  rw [withPrefix, List.map_cons, List.filter_cons]
  rfl

/-- One read of a directory passes the records up to the first one with the prefix. -/
theorem dirReadLoop_run {fuel : Nat} (hroots : ∀ r ∈ rs, RootIs w file r) (hreads : Enumerates w dir.iter rs)
    (hfuel : rs.length < fuel) :
    (∃ dir', (dirReadLoop fuel dir).run w = (.ok (none, dir'), w) ∧ withPrefix dir.pfx file rs = []) ∨
      ∃ f rest it, (dirReadLoop fuel dir).run w = (.ok (some f.stat, { dir with iter := it }), w) ∧
        Enumerates w it rest ∧ rest.length < rs.length ∧ (∀ r ∈ rest, r ∈ rs) ∧
        withPrefix dir.pfx file rs = f :: withPrefix dir.pfx file rest := by
  induction rs generalizing dir fuel with
  | nil =>
    obtain ⟨fuel, rfl⟩ := Nat.exists_eq_add_of_lt hfuel
    obtain ⟨it, hrun⟩ := hreads
    refine .inl ⟨{ dir with iter := it }, ?_, rfl⟩
    rw [List.length_nil, Nat.zero_add, dirReadLoop, bind_of_ok hrun]
    rfl
  | cons r rs ih =>
    obtain ⟨it, hrun, hrest⟩ := hreads
    obtain ⟨fuel, rfl⟩ : ∃ k, fuel = k + 1 := ⟨fuel - 1, by rw [List.length_cons] at hfuel; omega⟩
    rw [List.length_cons] at hfuel
    obtain ⟨root, hroot, hname, hsize⟩ := hroots r List.mem_cons_self
    rw [dirReadLoop, bind_of_ok hrun]
    dsimp only
    rw [bind_of_ok hroot, hname, hsize, withPrefix_cons]
    split
    · exact .inr ⟨file r.slot, rs, it, rfl, hrest, Nat.lt_succ_self _, fun r' hr' => List.mem_cons_of_mem _ hr', rfl⟩
    · have hshort : rs.length < fuel := by omega
      rcases @ih { dir with iter := it } _ (fun r' hr' => hroots r' (List.mem_cons_of_mem _ hr')) hrest
        hshort with ⟨dir', hloop, hnil⟩ | ⟨f, rest, it', hloop, hrest', hlt, hsub, heq⟩
      · exact .inl ⟨dir', hloop, hnil⟩
      · exact .inr ⟨f, rest, it', hloop, hrest', Nat.lt_succ_of_lt hlt,
          fun r' hr' => List.mem_cons_of_mem _ (hsub r' hr'), heq⟩

/-- The reads of a directory yield the files with the prefix. -/
theorem dirReads {n : Nat} (hroots : ∀ r ∈ rs, RootIs w file r) (hopen : dir.closed = false)
    (hreads : Enumerates w dir.iter rs) (hlen : rs.length ≤ slotCount) (hn : rs.length ≤ n) :
    DirReads w dir ((withPrefix dir.pfx file rs).map SmallFile.stat) := by
  have hread : dirRead dir = dirReadLoop (slotCount + 1) dir := by
    rw [dirRead, if_neg (by rw [hopen]; decide)]
  induction n generalizing dir rs with
  | zero =>
    rcases dirReadLoop_run hroots hreads (Nat.lt_succ_of_le hlen) with
      ⟨dir', hrun, hnil⟩ | ⟨f, rest, it, -, -, hlt, -⟩
    · rw [hnil]
      exact ⟨dir', by rw [hread]; exact hrun⟩
    · omega
  | succ n ih =>
    rcases dirReadLoop_run hroots hreads (Nat.lt_succ_of_le hlen) with
      ⟨dir', hrun, hnil⟩ | ⟨f, rest, it, hrun, hrest, hlt, hsub, heq⟩
    · rw [hnil]
      exact ⟨dir', by rw [hread]; exact hrun⟩
    · rw [heq]
      refine ⟨{ dir with iter := it }, by rw [hread]; exact hrun, ?_⟩
      exact @ih { dir with iter := it } _ (fun r hr => hroots r (hsub r hr)) hopen hrest (by omega)
        (by omega) (by rw [dirRead]; exact if_neg (by rw [hopen]; decide))

/-- The loop of `fffs_list` takes what the directory yields. -/
theorem listLoop_run {fuel : Nat} {stats : List Stat} (h : DirReads w dir stats) (hfuel : stats.length < fuel) :
    (listLoop fuel dir).run w = (.ok stats, w) := by
  induction stats generalizing dir fuel with
  | nil =>
    obtain ⟨fuel, rfl⟩ := Nat.exists_eq_add_of_lt hfuel
    obtain ⟨dir', hrun⟩ := h
    rw [List.length_nil, Nat.zero_add, listLoop, bind_of_ok hrun]
    rfl
  | cons st stats ih =>
    obtain ⟨fuel, rfl⟩ : ∃ k, fuel = k + 1 := ⟨fuel - 1, by rw [List.length_cons] at hfuel; omega⟩
    obtain ⟨dir', hrun, hrest⟩ := h
    rw [List.length_cons] at hfuel
    rw [listLoop, bind_of_ok hrun]
    dsimp only
    rw [bind_of_ok (ih hrest (by omega))]
    rfl

end Directory

/-! ## The directory of a store -/

/-- The files with a prefix, each once. -/
structure Directory.Lists (d : Directory) (pfx : List Byte) (files : List SmallFile) : Prop where
  nodup : (files.map SmallFile.name).Nodup
  mem_iff : ∀ f, f ∈ files ↔ pfx.isPrefixOf f.name = true ∧ d.get f.name = some f

section Store

variable {S c n : Nat} {x : Prop} {d : Directory} {st : Shelves Nat Nat Entry} {bad : Nat → Prop} {w : World}

/-- What the walk of the index yields in a store. -/
theorem Holds.enumerates (h : Holds S c n x d.slot st bad w) : ∃ rs file, Enumerates w {} rs ∧
    rs.length ≤ slotCount ∧ (rs.map IndexRecord.slot).Nodup ∧ (∀ r ∈ rs, RootIs w file r) ∧
    ∀ k f, d.slot k = some f ↔ file k = f ∧ ∃ r ∈ rs, r.slot = k := by
  obtain ⟨logs, hlogs, hheads⟩ := h.stored.index
  obtain ⟨rs, henum, hlists⟩ := enumerates_lists hlogs.log hlogs.placed hlogs.cache
  have hlive : ∀ k, (∃ r ∈ rs, r.slot = k) ↔ ∃ p, st.head k = some p := by
    intro k
    rw [hheads]
    constructor
    · rintro ⟨r, hr, rfl⟩
      obtain ⟨heq, h0⟩ := hlists.sound r hr
      exact ⟨r.head, headOf_eq_some.mpr ⟨h0, heq⟩⟩
    · rintro ⟨p, hp⟩
      obtain ⟨h0, heq⟩ := headOf_eq_some.mp hp
      exact ⟨_, hlists.complete k (heq ▸ h0), rfl⟩
  refine ⟨rs, fun k => (d.slot k).getD ⟨[], []⟩, henum, ?_, hlists.nodup, fun r hr => ?_, fun k f => ?_⟩
  · have hsub : rs.map IndexRecord.slot ⊆ List.range slotCount := by
      intro k hk
      obtain ⟨r, hr, rfl⟩ := List.mem_map.mp hk
      obtain ⟨heq, h0⟩ := hlists.sound r hr
      exact List.mem_range.mpr (hlogs.log.slot_lt (heq ▸ h0))
    have hle := (List.subperm_of_subset hlists.nodup hsub).length_le
    rwa [List.length_map, List.length_range] at hle
  · obtain ⟨heq, h0⟩ := hlists.sound r hr
    have hp : st.head r.slot = some r.head := by rw [hheads, headOf_eq_some]; exact ⟨h0, heq⟩
    obtain ⟨e, hmem, -, hcur, hfiled⟩ := h.stored.toShelved.current h.tidy hp
    refine ⟨_, h.stored.readRoot h.tidy hp, ?_⟩
    dsimp only
    rw [rootIn, hcur, h.current, hcur]
    exact ⟨(hfiled.whole e hmem).name.cstr, rfl⟩
  · rw [hlive]
    cases hk : d.slot k with
    | none =>
      refine iff_of_false (fun hno => by cases hno) ?_
      rintro ⟨-, p, hp⟩
      rw [h.head_iff.mpr hk] at hp
      cases hp
    | some g =>
      dsimp only
      rw [hk, Option.some.injEq, Option.getD_some]
      refine (and_iff_left ?_).symm
      refine Option.ne_none_iff_exists'.mp fun hnone => ?_
      rw [h.head_iff.mp hnone] at hk
      cases hk

/-- The reads of a directory handle yield the files with its prefix, in every build. -/
theorem Holds.dir_run (h : Holds S c n x d.slot st bad w) (pfx : List Byte) :
    ∃ files, DirReads w { pfx := pfx } (files.map SmallFile.stat) ∧ d.Lists pfx files ∧
      files.length ≤ slotCount := by
  obtain ⟨rs, file, henum, hlen, hnodup, hroots, hfiles⟩ := h.enumerates
  refine ⟨withPrefix pfx file rs, dirReads hroots rfl henum hlen le_rfl, ⟨?_, fun f => ?_⟩, ?_⟩
  · have hsub : ((withPrefix pfx file rs).map SmallFile.name).Sublist (rs.map fun r => (file r.slot).name) := by
      have hfilter := (List.filter_sublist (p := fun f => pfx.isPrefixOf f.name)
        (l := rs.map fun r => file r.slot)).map SmallFile.name
      rwa [List.map_map] at hfilter
    refine hsub.nodup ?_
    rw [List.Nodup, List.pairwise_map] at hnodup ⊢
    refine hnodup.imp_of_mem fun {r r'} hr hr' hne hname => hne ?_
    exact d.unique ((hfiles r.slot _).mpr ⟨rfl, r, hr, rfl⟩) ((hfiles r'.slot _).mpr ⟨rfl, r', hr', rfl⟩) hname
  · rw [withPrefix, List.mem_filter, List.mem_map, and_comm, Slots.get_eq_some]
    refine and_congr_right fun _ => ?_
    simp only [hfiles, true_and]
    constructor
    · rintro ⟨r, hr, rfl⟩
      exact ⟨r.slot, rfl, r, hr, rfl⟩
    · rintro ⟨k, hk, r, hr, rfl⟩
      exact ⟨r, hr, hk⟩
  · refine (List.length_filter_le ..).trans ?_
    rw [List.length_map]
    exact hlen

/-- `fffs_list`. -/
theorem Holds.list_run (h : Holds S c n x d.slot st bad w) :
    ∃ files, list.run w = (.ok (files.map SmallFile.stat), w) ∧ d.Lists [] files := by
  obtain ⟨files, hreads, hlists, hlen⟩ := h.dir_run []
  refine ⟨files, ?_, hlists⟩
  rw [list, dirOpen, bind_of_ok (run_pure _ _)]
  exact listLoop_run hreads (by rw [List.length_map]; omega)

end Store

end Fastffs
