import Fastffs.StoreAlloc
import Fastffs.StoreRead

/-!
# Writing a small file

`fffs_open` gives a writer a window, `fffs_write` fills a cache and flushes it to the window in
whole granules, and `fffs_close` flushes the rest, programs the record, appends the index
record and tombstones the version before.  While the file fits into its window, the store
around it stays what it was at the open: the world differs from it by the bytes of the window
that have been flushed.
-/

namespace Fastffs

open Prog
open Nor (Byte Mem blank)

/-! ## A handle that writes -/

/-- The handle writes the file into the window of the sector.  `old` is the sector of the version
before. -/
structure File.Drafts (file : File) (k s : Nat) (win : FreeWindow) (f : SmallFile) (old : Nat) : Prop where
  closed : file.closed = false
  access : file.access = .wronly
  slot : file.slot = k
  head : file.head = s
  current : file.current = s
  spanHead : file.spanHead = s
  dataOffset : file.dataOffset = win.dataOff
  metadataOffset : file.currentMetadataOffset = win.recordOff
  needsFooter : file.currentNeedsFooter = win.needsFooter
  payload : file.rootPayloadOffset = f.name.length + 2
  name : file.name = f.name
  dataLen : file.currentDataLen = f.bytes.length
  size : file.size = f.bytes.length
  fileOffset : file.currentFileOffset = 0
  oldHead : file.oldHead = old
  oldNext : file.oldNext = 0

/-- The cache of the handle holds what it has not flushed of the image. -/
structure File.Buffers (file : File) (win : FreeWindow) (f : SmallFile) (flushed : Nat) : Prop where
  writeOffset : file.currentWriteOffset = win.dataOff + flushed
  cache : file.cache = f.image.drop flushed

/-- The slot has no live root but the one in the sector. -/
def soleRoot (w : World) (k p : Nat) : Prop :=
  ∀ s < w.fs.sectorCount, ((readMdForSlot s k).run w).1.isOk = true → s = p

instance (w : World) (k p : Nat) : Decidable (soleRoot w k p) :=
  inferInstanceAs (Decidable (∀ s < w.fs.sectorCount, ((readMdForSlot s k).run w).1.isOk = true → s = p))

section Sole

variable [Opts] {S c n k p : Nat} {st : Shelves Nat Nat Entry} {bad : Nat → Prop} {w : World}

theorem Stored.onlyOn (h : Stored S c n st bad w) (hsole : soleRoot w k p) : st.OnlyOn k p := by
  intro q e he hfor
  have hq : InData n c q := by
    by_contra hq
    rw [h.outside q hq] at he
    cases he
  have hgood : ¬ bad q := by
    intro hbad
    rw [(h.condemned q hq hbad).1] at he
    cases he
  obtain ⟨e', hfind⟩ := Option.isSome_iff_exists.mp (List.find?_isSome.mpr ⟨e, he, hfor⟩)
  refine hsole q (h.sectorCount ▸ hq.2) ?_
  rw [h.readMd hq hgood k, hfind]
  rfl

end Sole

/-- The world `w` is `v` but for the bytes of the window that the handle `h` has flushed. -/
structure Drafting [Opts] (S c n : Nat) (x : Prop) (d : Directory) (h : Nat) (k s : Nat) (win : FreeWindow)
    (f : SmallFile) (flushed old : Nat) (st : Shelves Nat Nat Entry) (bad : Nat → Prop) (v w : World) : Prop where
  openFiles : v.fs.openFiles = [h]
  stored : Stored S c n st bad v
  tidy : st.Tidy
  exact : x → st.Exact
  get : st.get = d.slot
  target : d.Target f.name k
  slot : NameSlot k
  name : NameOk f.name
  takes : Offers S c n st bad k allocMinUsableFree (s, win)
  current : st.head k = headOf old
  only : st.OnlyOn k old
  file : (w.files h).Drafts k s win f old
  flushed_le : flushed ≤ f.image.length
  fits : win.dataOff + f.image.length ≤ win.recordOff
  inside : Inside S s win.dataOff (win.dataOff + flushed) v w
  data : Nor.read w.dev.mem (s * S + win.dataOff) flushed = f.image.take flushed

/-- A handle that writes the file, between two calls. -/
def Composing [Opts] (S c n : Nat) (x : Prop) (d : Directory) (h : Nat) (f : SmallFile) (w : World) : Prop :=
  ∃ k s win flushed old st bad v, Drafting S c n x d h k s win f flushed old st bad v w ∧
    (w.files h).Buffers win f flushed ∧ (w.files h).cache.length < fileCacheSize

section Open

variable [Opts] {S c n h k old hd : Nat} {x : Prop} {d : Directory} {st : Shelves Nat Nat Entry} {bad : Nat → Prop}
  {w : World} {name : List Byte} {root : Option (Nat × RootMd)} {flags : OpenFlags}

omit [Opts] in
theorem nameSlot_window (hk : k ∈ nameWindow name) : NameSlot k := by
  obtain ⟨dist, -, rfl⟩ := mem_probeWindow.mp hk
  obtain ⟨h1, h2⟩ := normalizeSlotBase_range (hash16 name) (u16_lt _)
  exact nameSlot_candidate ⟨by omega, h2⟩ dist

omit [Opts] in
/-- The handle at the start of a file. -/
theorem File.drafts_start {f : File} {s first count : Nat} {win : FreeWindow} (hname : NameOk (cstr name))
    (hf : f = File.setOld { closed := false, access := .wronly, slot := k, head := hd } root)
    (hold : old = root.elim 0 Prod.fst) (hnext : ∀ p r, root = some (p, r) → r.next = 0) :
    ((f.atWindow win first count).startRoot name s).Drafts k s win ⟨cstr name, []⟩ old ∧
      ((f.atWindow win first count).startRoot name s).Buffers win ⟨cstr name, []⟩ 0 := by
  have hshort := hname.short
  rw [maxName] at hshort
  have hpayload : u16 (1 + (cstr name).length + 1) = (cstr name).length + 2 := by
    rw [u16, Nat.mod_eq_of_lt (by omega)]
    omega
  have hcache : rootPrefix name = (SmallFile.image ⟨cstr name, []⟩).drop 0 := by
    rw [List.drop_zero, SmallFile.image, List.append_nil, rootPrefix, rootPrefix, cstr_cstr]
  subst hf hold
  rcases root with _ | ⟨p, r⟩
  · exact ⟨⟨rfl, rfl, rfl, rfl, rfl, rfl, rfl, rfl, rfl, hpayload, rfl, rfl, rfl, rfl, rfl, rfl⟩, rfl, hcache⟩
  · exact ⟨⟨rfl, rfl, rfl, rfl, rfl, rfl, rfl, rfl, rfl, hpayload, rfl, rfl, rfl, rfl, rfl, hnext p r rfl⟩, rfl,
      hcache⟩

/-- What `fffs_open` for writing makes of a name before it looks for a sector. -/
def Directory.create (d : Directory) (name : List Byte) (flags : OpenFlags) : Except Status Unit :=
  match d.lookup name with
  | .error .notFound => if flags.create then .ok () else .error .notFound
  | .error e => .error e
  | .ok _ => if flags.excl ∨ flags.trunc = false then .error .exists else .ok ()

/-- No other live root of the slot is left than the one that the handle replaces. -/
def oldAlone (w : World) (h : Nat) : Prop :=
  (w.files h).oldHead = 0 ∨ soleRoot w (w.files h).slot (w.files h).oldHead

instance (w : World) (h : Nat) : Decidable (oldAlone w h) :=
  inferInstanceAs (Decidable ((w.files h).oldHead = 0 ∨ soleRoot w (w.files h).slot (w.files h).oldHead))

/-- The version that the handle replaces is the current one, and no other root of the slot is live. -/
theorem Stored.current_old (hs : Stored S c n st bad w) (ht : st.Tidy) (hget : st.get k = d.slot k)
    (hslot : (w.files h).slot = k) (hold : (w.files h).oldHead = old) (hzero : old = 0 ↔ d.slot k = none)
    (halone : oldAlone w h) : st.head k = headOf old ∧ st.OnlyOn k old := by
  by_cases h0 : old = 0
  · have hnone : st.head k = none := ht.get_eq_none.mp (hget.trans (hzero.mp h0))
    refine ⟨hnone.trans (headOf_eq_none.mpr h0).symm, fun q e he hfor => ?_⟩
    obtain ⟨hlive, hkey⟩ := Item.liveFor_iff.mp hfor
    exact absurd hkey ((ht.but hnone).lacks q e he hlive)
  · have honly : st.OnlyOn k old := by
      rw [oldAlone, hslot, hold] at halone
      exact hs.onlyOn (halone.resolve_left h0)
    refine ⟨?_, honly⟩
    obtain ⟨q, hq⟩ : ∃ q, st.head k = some q := by
      refine Option.ne_none_iff_exists'.mp fun hnone => h0 (hzero.mpr ?_)
      rw [← hget, ht.get_eq_none.mpr hnone]
    obtain ⟨e, he, hfor⟩ := ht.held k q hq
    rw [hq, headOf, if_neg h0, honly q e he hfor]

/-- The handle of a writer that has got a sector. -/
theorem drafting_start {f : File} {s : Nat} {win : FreeWindow} (hg : Granted S c n x d.slot h f s st bad win w)
    (hname : NameOk (cstr name)) (htarget : d.Target (cstr name) k)
    (hf : f = File.setOld { closed := false, access := .wronly, slot := k, head := hd } root)
    (hzero : root.elim 0 Prod.fst = 0 ↔ d.slot k = none) (hnext : ∀ p r, root = some (p, r) → r.next = 0) :
    let w' := ((do modifyFile h fun f => f.startRoot name s; registerOpenFile h : M Unit).run w).2
    oldAlone w' h → Composing S c n x d h ⟨cstr name, []⟩ w' := by
  intro w'
  obtain ⟨first, count, hfile⟩ := hg.file
  have hopened := hg.holds.setFile (h := h) (g := fun f => f.startRoot name s)
  have hstored : Stored S c n st bad w' := hopened.stored.setFs rfl hopened.stored.walk
  have hfinal : w'.files h = (f.atWindow win first count).startRoot name s := by
    change (if h = h then (w.files h).startRoot name s else w.files h) = _
    rw [if_pos rfl, hfile]
  have hlist : w'.fs.openFiles = [h] := by
    change h :: w.fs.openFiles = [h]
    rw [hg.holds.idle]
  obtain ⟨hdrafts, hbuffers⟩ := @File.drafts_start _ _ _ _ _ _ s first count win hname hf rfl hnext
  rw [← hfinal] at hdrafts hbuffers
  generalize w' = w' at hdrafts hbuffers hlist hstored
  intro halone
  have hslot : f.slot = k := by
    rw [hf]
    rcases root with _ | ⟨p, r⟩ <;> rfl
  have htakes : Offers S c n st bad k allocMinUsableFree (s, win) := hslot ▸ hg.takes
  obtain ⟨hcurrent, honly⟩ := hstored.current_old hg.holds.tidy (congrFun hg.holds.get k) hdrafts.slot hdrafts.oldHead
    hzero halone
  have hlen : (SmallFile.image ⟨cstr name, []⟩).length ≤ 34 := by
    rw [SmallFile.length_image hname]
    have hshort := hname.short
    rw [maxName] at hshort
    exact Nat.add_le_add hshort (le_refl 2)
  refine ⟨k, s, win, 0, _, st, bad, w', ⟨hlist, hstored, hg.holds.tidy, hg.holds.exact, hg.holds.get, htarget,
    nameSlot_window htarget.mem, hname, htakes, hcurrent, honly, hdrafts, Nat.zero_le _, ?_, .refl, rfl⟩,
    hbuffers, ?_⟩
  · have hroom := htakes.2.2.room
    change win.dataOff + 128 ≤ win.recordOff at hroom
    omega
  · rw [hbuffers.cache, List.length_drop, fileCacheSize]
    omega

/-- The write branch of `fffs_open` fails and changes no file, or it leaves a handle at the start of
its file. -/
theorem Kept.openWrite_run {g : File → File} (hk : Kept S c n x d.slot w) (hx : x → Opts.gcOnAllocFailure = false)
    (hfile : g (w.files h) = { closed := false, access := .wronly, slot := k, head := hd })
    (hname : NameOk (cstr name)) (htarget : d.Target (cstr name) k)
    (hzero : root.elim 0 Prod.fst = 0 ↔ d.slot k = none) (hnext : ∀ p r, root = some (p, r) → r.next = 0) :
    (∃ err w', (do modifyFile h g; openWrite h name ⟨k, root⟩ : M Unit).run w = (.error err, w') ∧
        Kept S c n x d.slot w') ∨
      ∃ w', (do modifyFile h g; openWrite h name ⟨k, root⟩ : M Unit).run w = (.ok (), w') ∧
        (oldAlone w' h → Composing S c n x d h ⟨cstr name, []⟩ w') := by
  obtain ⟨st0, bad0, hh⟩ := hk
  have hholds := (hh.setFile (h := h) (g := g)).setFile (h := h) (g := fun f => f.setOld root)
  have hset : ∀ {α : Type} (y : M α), (do modifyFile h g; modifyFile h fun f => f.setOld root; y : M α).run w =
      y.run ((modifyFile h fun f => f.setOld root).run ((modifyFile h g).run w).2).2 := fun _ => rfl
  have hfile0 : ((modifyFile h fun f => f.setOld root).run ((modifyFile h g).run w).2).2.files h =
      File.setOld { closed := false, access := .wronly, slot := k, head := hd } root := by
    change (if h = h then File.setOld (if h = h then g (w.files h) else w.files h) root else _) = _
    rw [if_pos rfl, if_pos rfl, hfile]
  rw [openWrite, hset]
  generalize ((modifyFile h fun f => f.setOld root).run ((modifyFile h g).run w).2).2 = w0 at hholds hfile0
  have hreserve : (w0.files h).reserveCount = 0 := by
    rw [hfile0]
    rcases root with _ | ⟨p, r⟩ <;> rfl
  obtain ⟨hkept, hgranted⟩ := allocNextSector_run hx hholds.kept hreserve
  cases halloc : (allocNextSector h).run w0 with
  | mk r w1 =>
    rw [halloc] at hkept hgranted
    cases r with
    | error err => exact .inl ⟨err, w1, bind_of_error halloc, hkept⟩
    | ok s =>
      obtain ⟨st, bad, win, hg⟩ := hgranted s rfl
      have hg2 := (inferInstance : Keeps (Granted S c n x d.slot h (w0.files h) s st bad win)
        (note (.narrow [1 + (cstr name).length + 1]))).keeps w1 hg
      have hrun2 : (note (.narrow [1 + (cstr name).length + 1])).run w1 =
        (.ok (), ((note (.narrow [1 + (cstr name).length + 1])).run w1).2) := rfl
      rw [bind_of_ok halloc, bind_of_ok hrun2]
      generalize ((note (.narrow [1 + (cstr name).length + 1])).run w1).2 = w2 at hg2
      refine .inr ⟨_, rfl, drafting_start hg2 hname htarget hfile0 hzero hnext⟩

/-- `fffs_open` for writing. -/
theorem Kept.create_run (hk : Kept S c n x d.slot w) (hx : x → Opts.gcOnAllocFailure = false) (h : Nat)
    (name : List Byte) (hread : flags.rdonly = false) (hwrite : flags.wronly = true)
    (hknown : flags.unknown = false) :
    (∃ err w', (openFile h name flags).run w = (.error err, w') ∧
        (d.create name flags = .error err ∨ d.create name flags = .ok ()) ∧ Kept S c n x d.slot w') ∨
      d.create name flags = .ok () ∧ ∃ w', (openFile h name flags).run w = (.ok (), w') ∧
        (oldAlone w' h → Composing S c n x d h ⟨cstr name, []⟩ w') := by
  obtain ⟨st, bad, hh⟩ := hk
  have hh0 := hh.setFile (h := h) (g := fun _ => { closed := false })
  have hclear : (modifyFile h fun _ => { closed := false }).run w =
    (.ok (), ((modifyFile h fun _ => { closed := false }).run w).2) := rfl
  have hfile : ((modifyFile h fun _ => { closed := false }).run w).2.files h = { closed := false } := if_pos rfl
  generalize ((modifyFile h fun _ => { closed := false }).run w).2 = w0 at hh0 hclear hfile
  obtain ⟨r, hlooked, hrun⟩ := hh0.looked name false
  rw [openFile, bind_of_ok hclear, if_neg (by rw [hread, hwrite, hknown]; decide), hread]
  rw [Directory.create]
  generalize d.lookup name = found at hlooked
  cases hlooked with
  | @refused err hne =>
    refine .inl ⟨err, w0, bind_of_error hrun, .inl ?_, hh0.kept⟩
    cases err <;> first | rfl | exact absurd rfl hne
  | @absent k hname hfind hfree =>
    rw [bind_of_ok hrun]
    dsimp only
    rw [if_neg (by decide)]
    by_cases hcreate : flags.create = true
    · rw [if_neg (by rw [hcreate]; decide), if_pos hcreate]
      have hslot : d.slot k = none := by
        have hnone : (d.slot k).isNone = true := @List.find?_some _ (fun k => (d.slot k).isNone) _ _ hfree
        exact Option.isNone_iff_eq_none.mp hnone
      rcases @Kept.openWrite_run _ _ _ _ _ _ 0 _ _ _ _ none (fun f => { f with access := .wronly, slot := k })
        hh0.kept hx (by rw [hfile]) hname (.inr ⟨hfind, hfree⟩) (iff_of_true rfl hslot) (fun p r hno => by cases hno) with
        ⟨err, w', hfail, hkept⟩ | hok
      · exact .inl ⟨err, w', hfail, .inr rfl, hkept⟩
      · exact .inr ⟨rfl, hok⟩
    · rw [Bool.not_eq_true] at hcreate
      rw [if_pos hcreate, hcreate, if_neg (by decide)]
      exact .inl ⟨_, w0, rfl, .inl rfl, hh0.kept⟩
  | @present k p e hname hfind hp he =>
    rw [bind_of_ok hrun]
    dsimp only
    rw [hwrite]
    by_cases hrefused : flags.excl = true ∨ flags.trunc = false
    · rw [if_pos ⟨rfl, hrefused⟩, if_pos hrefused]
      exact .inl ⟨_, w0, rfl, .inl rfl, hh0.kept⟩
    · rw [if_neg fun hno => hrefused hno.2, if_neg hrefused, if_neg (by decide)]
      have hdata := (hh0.stored.toShelved.head_data hh0.tidy hp).1
      have hpos : p ≠ 0 := by
        have hn := hh0.stored.toShelved.pos
        have hle := hdata.1
        omega
      obtain ⟨f, hf, -⟩ := Slots.find_eq_some.mp hfind
      rcases @Kept.openWrite_run _ _ _ _ _ _ p _ _ _ _ (some (p, e.root false))
        (fun f => { f with access := .wronly, slot := k, head := p }) hh0.kept hx (by rw [hfile]) hname (.inl hfind)
        (iff_of_false hpos (by rw [hf]; exact fun hno => by cases hno)) (fun p r hr => by cases hr; rfl) with
        ⟨err, w', hfail, hkept⟩ | hok
      · exact .inl ⟨err, w', hfail, .inr rfl, hkept⟩
      · exact .inr ⟨rfl, hok⟩

end Open

/-! ## Write -/

/-- The file with more bytes at its end. -/
def SmallFile.append (f : SmallFile) (bs : List Byte) : SmallFile := { f with bytes := f.bytes ++ bs }

theorem SmallFile.image_append (f : SmallFile) (bs : List Byte) : (f.append bs).image = f.image ++ bs :=
  (List.append_assoc ..).symm

section Write

variable [Opts] {S c n h k s flushed old : Nat} {x : Prop} {d : Directory} {st : Shelves Nat Nat Entry}
  {bad : Nat → Prop} {v w w' : World} {win : FreeWindow} {f : SmallFile} {bs : List Byte} {g : File → File}

/-- Nothing but the handle has changed. -/
theorem Drafting.congr (hd : Drafting S c n x d h k s win f flushed old st bad v w) (hdev : w'.dev = w.dev)
    (hfs : w'.fs = w.fs) (hfile : (w'.files h).Drafts k s win f old) :
    Drafting S c n x d h k s win f flushed old st bad v w' :=
  { hd with
    file := hfile
    inside := ⟨fun hplan => hdev ▸ hd.inside.plan hplan, hdev ▸ hd.inside.size, hdev ▸ hd.inside.granule,
      hfs ▸ hd.inside.fs, hdev ▸ hd.inside.bytes⟩
    data := hdev ▸ hd.data }

/-- The file grows. -/
theorem Drafting.grow (hd : Drafting S c n x d h k s win f flushed old st bad v w)
    (hg : (g (w.files h)).Drafts k s win (f.append bs) old)
    (hfits : win.dataOff + f.image.length + bs.length ≤ win.recordOff) :
    Drafting S c n x d h k s win (f.append bs) flushed old st bad v ((modifyFile h g).run w).2 := by
  have hfile : ((modifyFile h g).run w).2.files h = g (w.files h) := if_pos rfl
  have hlen : (f.append bs).image.length = f.image.length + bs.length := by
    rw [SmallFile.image_append, List.length_append]
  have hle := hd.flushed_le
  exact { hd with
    file := hfile ▸ hg
    flushed_le := by omega
    fits := by omega
    inside := ⟨hd.inside.plan, hd.inside.size, hd.inside.granule, hd.inside.fs, hd.inside.bytes⟩
    data := by
      change Nor.read w.dev.mem _ _ = _
      rw [hd.data, SmallFile.image_append, List.take_append_of_le_length hle] }

theorem Drafting.place (hd : Drafting S c n x d h k s win f flushed old st bad v w) : SectorAt S c n s w :=
  hd.inside.place (hd.stored.toShelved.place hd.takes.1)

/-- The window is blank where the handle has not flushed. -/
theorem Drafting.gap (hd : Drafting S c n x d h k s win f flushed old st bad v w) {m : Nat}
    (hm : flushed + m ≤ f.image.length) :
    Nor.read w.dev.mem (s * S + (win.dataOff + flushed)) m = List.replicate m blank := by
  obtain ⟨hs, hgood, hwin⟩ := hd.takes
  have hfits := hd.fits
  refine Nor.read_eq_blanks fun a h1 h2 => ?_
  rw [hd.inside.bytes a (.inr (by omega))]
  obtain ⟨b, rfl⟩ := Nat.exists_eq_add_of_le (show s * S ≤ a by omega)
  refine (hd.stored.filed s hs hgood).recorded.gap b ?_ ?_
  · rw [← hwin.off]
    change win.dataOff ≤ b
    omega
  · rw [← hwin.place]
    change b < win.recordOff + mdFileRecordSize
    omega

/-- The handle programs the next bytes of its image, and padding after them. -/
theorem Drafting.program (hd : Drafting S c n x d h k s win f flushed old st bad v w) {m pad : Nat}
    (hm : flushed + m ≤ f.image.length) (hpad : win.dataOff + flushed + m + pad ≤ S) :
    ∃ w', (programAligned (s * S + (win.dataOff + flushed))
        ((f.image.drop flushed).take m ++ List.replicate pad blank)).run w = (.ok (), w') ∧ w'.files = w.files ∧
      Drafting S c n x d h k s win f (flushed + m) old st bad v w' := by
  have hp := hd.place
  have hinside := hp.inside
  rw [Nat.succ_mul] at hinside
  have hlen : ((f.image.drop flushed).take m).length = m := by
    rw [List.length_take, List.length_drop]
    omega
  have hrun := @programAligned_run w (s * S + (win.dataOff + flushed))
    ((f.image.drop flushed).take m ++ List.replicate pad blank) hp.plan hp.granule hp.aligned
    (by rw [List.length_append, List.length_replicate, hlen]; omega)
  rw [← Nor.program_append, Nor.program_blanks] at hrun
  have hin := @Inside.program _ _ _ _ _ _
    (hd.inside.mono le_rfl (show win.dataOff + flushed ≤ win.dataOff + (flushed + m) by omega))
    (win.dataOff + flushed) ((f.image.drop flushed).take m) (Nat.le_add_right _ _)
    (by rw [hlen]; omega)
  have hdata : Nor.read (Nor.program w.dev.mem (s * S + (win.dataOff + flushed)) ((f.image.drop flushed).take m))
      (s * S + win.dataOff) (flushed + m) = f.image.take (flushed + m) := by
    have hold : Nor.read (Nor.program w.dev.mem (s * S + (win.dataOff + flushed)) ((f.image.drop flushed).take m))
        (s * S + win.dataOff) flushed = f.image.take flushed :=
      (Nor.read_program_of_disjoint (.inl (by omega))).trans hd.data
    rw [Nor.read_append, hold, Nat.add_assoc, Nor.read_program_blank (hd.gap hm) _ hlen, List.take_add]
  exact ⟨_, hrun, rfl, { hd with flushed_le := hm, inside := hin, data := hdata }⟩

/-- `flush_write_cache` programs the next bytes of the image. -/
theorem Drafting.flush (hd : Drafting S c n x d h k s win f flushed old st bad v w)
    (hb : (w.files h).Buffers win f flushed) {final : Bool} {m pad : Nat}
    (hbytes : flushBytes w.dev.programGranule final (w.files h).cache =
      (f.image.drop flushed).take m ++ List.replicate pad blank)
    (hm : flushed + m ≤ f.image.length) (hpad : win.dataOff + flushed + m + pad ≤ S) :
    ∃ w', (flushWriteCache h final).run w = (.ok (), w') ∧
      Drafting S c n x d h k s win f (flushed + m) old st bad v w' ∧
      (pad = 0 → (w'.files h).Buffers win f (flushed + m)) := by
  have hlen : ((f.image.drop flushed).take m ++ List.replicate pad blank).length = m + pad := by
    rw [List.length_append, List.length_replicate, List.length_take, List.length_drop]
    omega
  rw [flushWriteCache, bind_of_ok (run_get w)]
  dsimp only
  rw [hbytes]
  generalize hbs : (f.image.drop flushed).take m ++ List.replicate pad blank = bs at hlen
  split
  · next hempty =>
    rw [List.isEmpty_iff.mp hempty] at hlen
    obtain ⟨rfl, -⟩ : m = 0 ∧ pad = 0 := by
      rw [List.length_nil] at hlen
      omega
    exact ⟨w, rfl, hd, fun _ => hb⟩
  · have hnoted : Drafting S c n x d h k s win f flushed old st bad v ((note (.flush h final)).run w).2 :=
      hd.congr rfl rfl hd.file
    have hnote : (note (.flush h final)).run w = (.ok (), ((note (.flush h final)).run w).2) := rfl
    have hfiles : ((note (.flush h final)).run w).2.files = w.files := rfl
    generalize ((note (.flush h final)).run w).2 = w1 at hnoted hnote hfiles
    obtain ⟨w2, hprogram, hfiles2, hd2⟩ := hnoted.program hm hpad
    rw [hbs] at hprogram
    have hfile2 : w2.files h = w.files h := by rw [hfiles2, hfiles]
    rw [bind_of_ok hnote, hd.file.current, hd.place.sectorSize, hb.writeOffset, bind_of_ok hprogram]
    have hdrafts : (w2.files h).Drafts k s win f old := hd2.file
    refine ⟨_, rfl, @Drafting.congr _ _ _ _ _ _ _ _ _ _ _ _ _ _ _ ((modifyFile h fun f =>
      { f with currentWriteOffset := u16 (f.currentWriteOffset + bs.length)
               cache := f.cache.drop bs.length }).run w2).2 _ _ hd2 rfl rfl ?_, fun hzero => ?_⟩
    · change (if h = h then _ else w2.files h).Drafts k s win f old
      rw [if_pos rfl]
      exact { hdrafts with }
    · change (if h = h then _ else w2.files h).Buffers win f (flushed + m)
      have hsmall := hd.stored.small
      have hgranule := hd.place.size_ge
      rw [if_pos rfl, hfile2]
      refine ⟨?_, ?_⟩
      · change u16 ((w.files h).currentWriteOffset + bs.length) = _
        have hfits := hd.fits
        have habove := hd.takes.2.2.record_le (hd.stored.filed s hd.takes.1 hd.takes.2.1)
        change win.recordOff + mdFileRecordSize ≤ S - sectorFooterSize at habove
        rw [mdFileRecordSize] at habove
        rw [hb.writeOffset, hlen, u16, Nat.mod_eq_of_lt (by omega)]
        omega
      · change (w.files h).cache.drop bs.length = _
        rw [hb.cache, hlen, hzero, List.drop_drop, Nat.add_zero]

/-- The padding of the last flush stays in the sector. -/
theorem Drafting.pad_le (hd : Drafting S c n x d h k s win f flushed old st bad v w) :
    0 < w.dev.programGranule ∧ w.dev.programGranule ≤ 26 ∧ win.recordOff + 26 ≤ S ∧ win.recordOff < 65536 := by
  have hgranule : w.dev.programGranule ≤ 26 := hd.inside.granule ▸ hd.stored.granule
  have habove := hd.takes.2.2.record_le (hd.stored.filed s hd.takes.1 hd.takes.2.1)
  have hge := hd.place.size_ge
  have hsmall := hd.stored.small
  change win.recordOff + 16 ≤ S - 10 at habove
  exact ⟨hd.place.granule, hgranule, by omega, by omega⟩

/-- The last flush. -/
theorem Drafting.flushAll (hd : Drafting S c n x d h k s win f flushed old st bad v w)
    (hb : (w.files h).Buffers win f flushed) : ∃ w', (flushWriteCache h true).run w = (.ok (), w') ∧
      Drafting S c n x d h k s win f f.image.length old st bad v w' := by
  obtain ⟨hpos, hgranule, habove, -⟩ := hd.pad_le
  have hle := hd.flushed_le
  have hfits := hd.fits
  have hlen : (w.files h).cache.length = f.image.length - flushed := by
    rw [hb.cache, List.length_drop]
  have hpad := Nat.mod_lt (w.dev.programGranule - (w.files h).cache.length % w.dev.programGranule) hpos
  obtain ⟨w', hrun, hd', -⟩ := @Drafting.flush _ _ _ _ _ _ _ _ _ _ _ _ _ _ _ _ _ hd hb true (f.image.length - flushed) _
    (by rw [flushBytes, if_pos rfl, List.take_of_length_le (by rw [List.length_drop]), ← hb.cache])
    (by omega) (by omega)
  rw [Nat.add_sub_cancel' hle] at hd'
  exact ⟨w', hrun, hd'⟩

/-- A flush of a full cache. -/
theorem Drafting.flushFull (hd : Drafting S c n x d h k s win f flushed old st bad v w)
    (hb : (w.files h).Buffers win f flushed) (hfull : (w.files h).cache.length = fileCacheSize) :
    ∃ flushed' w', (flushWriteCache h false).run w = (.ok (), w') ∧
      Drafting S c n x d h k s win f flushed' old st bad v w' ∧ (w'.files h).Buffers win f flushed' ∧
      (w'.files h).cache.length < fileCacheSize := by
  obtain ⟨hpos, hgranule, habove, -⟩ := hd.pad_le
  have hfits := hd.fits
  have hlen : f.image.length - flushed = fileCacheSize := by
    rw [← hfull, hb.cache, List.length_drop]
  have hmod := Nat.mod_lt fileCacheSize hpos
  rw [fileCacheSize] at hlen hmod
  obtain ⟨w', hrun, hd', hb'⟩ :=
    @Drafting.flush _ _ _ _ _ _ _ _ _ _ _ _ _ _ _ _ _ hd hb false (256 - 256 % w.dev.programGranule) 0
      (by rw [flushBytes, if_neg (by decide), hfull, hb.cache, List.replicate_zero, List.append_nil]; rfl)
      (by omega) (by omega)
  refine ⟨_, w', hrun, hd', hb' rfl, ?_⟩
  rw [(hb' rfl).cache, List.length_drop, fileCacheSize]
  omega

/-- The room in the window of the handle. -/
theorem Drafting.capacity (hd : Drafting S c n x d h k s win f flushed old st bad v w) :
    currentExtentCapacity (w.files h) = win.recordOff - win.dataOff - (f.name.length + 2) ∧
      (w.files h).currentDataLen = f.bytes.length ∧ f.image.length = f.name.length + 2 + f.bytes.length := by
  refine ⟨?_, hd.file.dataLen, SmallFile.length_image hd.name⟩
  rw [currentExtentCapacity, hd.file.current, hd.file.head, if_pos rfl, hd.file.metadataOffset, hd.file.dataOffset,
    hd.file.payload]

/-- The handle takes bytes into its cache. -/
theorem Drafting.take (hd : Drafting S c n x d h k s win f flushed old st bad v w)
    (hb : (w.files h).Buffers win f flushed) (hfits : win.dataOff + f.image.length + bs.length ≤ win.recordOff) :
    Drafting S c n x d h k s win (f.append bs) flushed old st bad v ((modifyFile h fun f => f.take bs).run w).2 ∧
      (((modifyFile h fun f => f.take bs).run w).2.files h).Buffers win (f.append bs) flushed ∧
      (((modifyFile h fun f => f.take bs).run w).2.files h).cache.length = (w.files h).cache.length + bs.length := by
  have hfile : ((modifyFile h fun f => f.take bs).run w).2.files h = (w.files h).take bs := if_pos rfl
  obtain ⟨-, -, -, hsmall⟩ := hd.pad_le
  obtain ⟨-, -, hlen⟩ := hd.capacity
  have hdrafts := hd.file
  refine ⟨hd.grow { hdrafts with dataLen := ?_, size := ?_ } hfits, ?_, ?_⟩
  · change u16 ((w.files h).currentDataLen + bs.length) = (f.bytes ++ bs).length
    rw [hd.file.dataLen, List.length_append, u16, Nat.mod_eq_of_lt (by omega)]
  · change u32 ((w.files h).size + bs.length) = (f.bytes ++ bs).length
    rw [hd.file.size, List.length_append, u32, Nat.mod_eq_of_lt (by omega)]
  · rw [hfile]
    refine ⟨hb.writeOffset, ?_⟩
    change (w.files h).cache ++ bs = _
    rw [hb.cache, SmallFile.image_append, List.drop_append_of_le_length hd.flushed_le]
  · rw [hfile]
    exact List.length_append

/-- The loop of `fffs_write` takes all bytes that fit into the window. -/
theorem Drafting.loop {fuel : Nat} {src : List Byte}
    (hd : Drafting S c n x d h k s win f flushed old st bad v w) (hb : (w.files h).Buffers win f flushed)
    (hcache : (w.files h).cache.length < fileCacheSize) (hfuel : src.length < fuel)
    (hfits : win.dataOff + f.image.length + src.length ≤ win.recordOff) :
    ∃ flushed' w', (writeLoop h fuel src).run w = (.ok (), w') ∧
      Drafting S c n x d h k s win (f.append src) flushed' old st bad v w' ∧
      (w'.files h).Buffers win (f.append src) flushed' ∧ (w'.files h).cache.length < fileCacheSize := by
  induction fuel generalizing src f flushed w with
  | zero => omega
  | succ fuel ih =>
    rw [writeLoop]
    by_cases hempty : src.isEmpty = true
    · rw [if_pos hempty]
      obtain rfl := List.isEmpty_iff.mp hempty
      have hsame : f.append [] = f := by rw [SmallFile.append, List.append_nil]
      rw [hsame]
      exact ⟨flushed, w, rfl, hd, hb, hcache⟩
    · rw [if_neg hempty, bind_of_ok (run_getFile h w)]
      have hpos : 0 < src.length := List.length_pos_of_ne_nil fun hno => hempty (List.isEmpty_iff.mpr hno)
      obtain ⟨hcapacity, hdataLen, hlen⟩ := hd.capacity
      rw [when_neg (by rw [hcapacity, hdataLen]; omega), bind_of_ok (run_pure ..), bind_of_ok (run_getFile h w)]
      dsimp only
      generalize hspace : min (currentExtentCapacity (w.files h) - (w.files h).currentDataLen)
        (fileCacheSize - (w.files h).cache.length) = space
      -- a round takes at least one byte
      have htaken : (src.take space).length = min space src.length := List.length_take
      have hspace_pos : 0 < space := by
        rw [hcapacity, hdataLen] at hspace
        omega
      have hspace_le : space ≤ fileCacheSize - (w.files h).cache.length := hspace ▸ Nat.min_le_right _ _
      have hnoted : Drafting S c n x d h k s win f flushed old st bad v
          ((note (.narrow [(w.files h).currentDataLen + (src.take space).length])).run w).2 :=
        hd.congr rfl rfl hd.file
      have hnote : (note (.narrow [(w.files h).currentDataLen + (src.take space).length])).run w =
        (.ok (), ((note (.narrow [(w.files h).currentDataLen + (src.take space).length])).run w).2) := rfl
      have hfiles : ((note (.narrow [(w.files h).currentDataLen + (src.take space).length])).run w).2.files =
        w.files := rfl
      rw [bind_of_ok hnote]
      generalize ((note (.narrow [(w.files h).currentDataLen + (src.take space).length])).run w).2 = w1
        at hnoted hfiles
      rw [← hfiles] at hb hcache hspace_le
      obtain ⟨hd2, hb2, hcache2⟩ :=
        @Drafting.take _ _ _ _ _ _ _ _ _ _ _ _ _ _ _ _ _ (src.take space) hnoted hb (by omega)
      have hset : (modifyFile h fun f => f.take (src.take space)).run w1 =
        (.ok (), ((modifyFile h fun f => f.take (src.take space)).run w1).2) := rfl
      rw [bind_of_ok hset]
      generalize ((modifyFile h fun f => f.take (src.take space)).run w1).2 = w2 at hd2 hb2 hcache2
      have hflushed : ∃ flushed' w3, (Prog.when ((w2.files h).cache.length = fileCacheSize)
            (flushWriteCache h false)).run w2 = (.ok (), w3) ∧
          Drafting S c n x d h k s win (f.append (src.take space)) flushed' old st bad v w3 ∧
          (w3.files h).Buffers win (f.append (src.take space)) flushed' ∧
          (w3.files h).cache.length < fileCacheSize := by
        by_cases hfull : (w2.files h).cache.length = fileCacheSize
        · rw [when_pos hfull]
          exact hd2.flushFull hb2 hfull
        · rw [when_neg hfull]
          exact ⟨flushed, w2, rfl, hd2, hb2, by omega⟩
      obtain ⟨flushed', w3, hflush, hd3, hb3, hcache3⟩ := hflushed
      rw [bind_of_ok (run_getFile h w2), bind_of_ok hflush]
      have hrest : (src.drop (src.take space).length).length < fuel := by
        rw [List.length_drop]
        omega
      have hfits3 : win.dataOff + (f.append (src.take space)).image.length +
          (src.drop (src.take space).length).length ≤ win.recordOff := by
        rw [SmallFile.image_append, List.length_append, List.length_drop]
        omega
      obtain ⟨flushed2, w4, hrun, hd4, hb4, hcache4⟩ := ih hd3 hb3 hcache3 hrest hfits3
      have hall : (f.append (src.take space)).append (src.drop (src.take space).length) = f.append src := by
        rw [SmallFile.append, SmallFile.append, SmallFile.append, List.append_assoc, htaken]
        congr 2
        rcases Nat.le_total space src.length with hle | hle
        · rw [Nat.min_eq_left hle, List.take_append_drop]
        · rw [Nat.min_eq_right hle, List.take_of_length_le hle, List.drop_length, List.append_nil]
      rw [hall] at hd4 hb4
      exact ⟨flushed2, w4, hrun, hd4, hb4, hcache4⟩

/-- What is written into the window of a handle comes after what the handle has taken before. -/
theorem Composing.write_run (hw : Composing S c n x d h f w) {src : List Byte}
    (hfits : (w.files h).currentDataLen + src.length ≤ currentExtentCapacity (w.files h)) :
    ∃ w', (write h src).run w = (.ok (), w') ∧ Composing S c n x d h (f.append src) w' := by
  obtain ⟨k, s, win, flushed, old, st, bad, v, hd, hb, hcache⟩ := hw
  obtain ⟨hcapacity, hdataLen, hlen⟩ := hd.capacity
  have hroom : win.dataOff + f.image.length + src.length ≤ win.recordOff := by
    rw [hcapacity, hdataLen] at hfits
    have hold := hd.fits
    omega
  obtain ⟨flushed', w', hrun, hd', hb', hcache'⟩ := hd.loop hb hcache (Nat.lt_succ_self src.length) hroom
  refine ⟨w', ?_, k, s, win, flushed', old, st, bad, v, hd', hb', hcache'⟩
  rw [write, bind_of_ok (run_getFile h w), if_neg (by rw [hd.file.closed, hd.file.access]; decide)]
  exact hrun

/-- `fffs_fstat` of a handle that writes. -/
theorem Composing.fstat_run (hw : Composing S c n x d h f w) : (fstat h).run w = (.ok ⟨f.name, f.bytes.length⟩, w) := by
  obtain ⟨k, s, win, flushed, old, st, bad, v, hd, -, -⟩ := hw
  rw [fstat, bind_of_ok (run_getFile h w), if_neg (by rw [hd.file.closed]; decide), hd.file.access, hd.file.name,
    hd.file.size]
  rfl

end Write

/-! ## The version before -/

section Invalidate

variable [Opts] {S c n k s : Nat} {st : Shelves Nat Nat Entry} {bad : Nat → Prop} {w : World} {e : Entry}

/-- `fffs_invalidate_old_chain` of a small file kills its root. -/
theorem Stored.invalidateOldChain (h : Stored S c n st bad w) (heager : Opts.lazyDeleteTombstones = false)
    (hs : InData n c s) (hgood : ¬ bad s) (hfind : (st.items s).find? (Item.liveFor k) = some e) :
    ∃ accounted w', (invalidateOldChain k s 0).run w = (.ok accounted, w') ∧
      Stored S c n (st.retire s k) bad w' ∧ SameWork w w' := by
  have hmem : e ∈ st.items s := List.mem_of_find?_eq_some hfind
  have hwhole := (h.filed s hs hgood).whole e hmem
  have hread : (readMdForSlot s k).run w = (.ok e.md, w) := by
    rw [h.readMd hs hgood k, hfind]
    rfl
  have hpos : s ≠ 0 := Nat.ne_of_gt (h.pos.trans_le hs.1)
  have hsmall : s < 65536 := by
    obtain ⟨logs, hlogs, -⟩ := h.index
    have hle := hlogs.sectorCount_le
    rw [h.sectorCount, uint16Max] at hle
    exact hs.2.trans_le (hle.trans (by decide))
  obtain ⟨depth, hdepth⟩ := Nat.exists_eq_succ_of_ne_zero (show w.fs.sectorCount ≠ 0 by
    rw [h.sectorCount]
    exact Nat.ne_of_gt (Nat.zero_lt_of_lt hs.2))
  have hmark : (allocMapMarkRangeUnknown s 1).run w = (.ok (), ((allocMapMarkRangeUnknown s 1).run w).2) :=
    run_eq_of_fst rfl
  obtain ⟨hstored1, hsame1⟩ := h.keeps (x := allocMapMarkRangeUnknown s 1)
  generalize ((allocMapMarkRangeUnknown s 1).run w).2 = w1 at hmark hstored1 hsame1
  obtain ⟨accounted, w2, htomb, hstored2, hsame2⟩ := hstored1.tombstone hs hgood k true
  have hspan : (tombstoneSpan k 1 s true false).run w1 = (.ok (true, accounted), w2) := by
    rw [tombstoneSpan, u16_of_lt hsmall, bind_of_ok (by rw [run_attempt, htomb])]
    rfl
  have hloop : (invalidateChainLoop k w.fs.sectorCount s (some 0) 0 true false).run w =
      (.ok (some 1, accounted), w2) := by
    rw [hdepth, invalidateChainLoop, if_neg hpos, bind_of_ok (run_getFs w), bind_of_ok (by rw [run_attempt, hread])]
    dsimp only
    rw [hwhole.span, if_neg (by rw [h.sectorCount]; exact Nat.not_lt.mpr hs.2), bind_of_ok hmark, heager,
      if_neg (by decide), bind_of_ok hspan]
    dsimp only
    rw [if_pos rfl]
    cases depth <;> rfl
  rw [Fastffs.invalidateOldChain, bind_of_ok (run_getFs w), bind_of_ok hloop]
  dsimp only
  rw [when_pos (by decide)]
  have hsampled : Stored S c n (st.retire s k) bad ((do
      note (.sample ((some 1).getD 0))
      modifyFs (fsinfoSampleChain ((some 1).getD 0)) : M Unit).run w2).2 ∧ SameWork w2 ((do
      note (.sample ((some 1).getD 0))
      modifyFs (fsinfoSampleChain ((some 1).getD 0)) : M Unit).run w2).2 := by
    have hin : Keeps (Inside S 0 0 0 w2) (modifyFs (fsinfoSampleChain ((some 1).getD 0))) :=
      keeps_insideFs fun _ => rfl
    have hwork : Keeps (SameWork w2) (modifyFs (fsinfoSampleChain ((some 1).getD 0))) := keeps_dataFs fun _ => rfl
    exact hstored2.keeps
  exact ⟨accounted, _, rfl, hsampled.1, (hsame1.trans hsame2).trans hsampled.2⟩

/-- The caller of `fffs_invalidate_old_chain` accounts for the version. -/
theorem Stored.invalidate (h : Stored S c n st bad w) (heager : Opts.lazyDeleteTombstones = false)
    (hs : InData n c s) (hgood : ¬ bad s) (hfind : (st.items s).find? (Item.liveFor k) = some e) :
    ∃ w', (invalidateCommitted k s 0).run w = (.ok (), w') ∧ Stored S c n (st.retire s k) bad w' ∧
      SameWork w w' := by
  obtain ⟨accounted, w1, hrun, hstored, hsame⟩ := h.invalidateOldChain heager hs hgood hfind
  rw [invalidateCommitted, bind_of_ok hrun, bind_of_ok (run_getFs w1), Prog.when]
  split
  · obtain ⟨hstored2, hsame2⟩ := hstored.keeps (x := modifyFs fsinfoInvalidateCommitted)
    exact ⟨_, rfl, hstored2, hsame.trans hsame2⟩
  · exact ⟨w1, rfl, hstored, hsame⟩

end Invalidate

/-! ## Close -/

/-- The record that is begun for the root of the file. -/
def begunRecord (k : Nat) (win : FreeWindow) (f : SmallFile) : MdRecord :=
  extentRecord k mdTypeFileRootV1 win.dataOff win.recordOff f.image.length 0 0 0 false

/-- The root of the file is begun: its data is on the flash, and its record is not committed. -/
structure Begun (S c n k s : Nat) (win : FreeWindow) (f : SmallFile) (es : List Entry) (v w : World) : Prop where
  inside : Inside S s 0 S v w
  recorded : Recorded S c n s (records es ++ [begunRecord k win f]) (win.dataOff + f.image.length) w
  data : ∀ e ∈ es, Nor.read w.dev.mem (s * S + e.md.dataOff) e.md.dataLen = e.file.image
  new : Nor.read w.dev.mem (s * S + win.dataOff) f.image.length = f.image

section Close

variable [Opts] {S c n h k s old flushed minFree : Nat} {x : Prop} {d : Directory} {st : Shelves Nat Nat Entry}
  {bad : Nat → Prop} {v w w' : World} {win : FreeWindow} {f : SmallFile} {es : List Entry}

instance (h : Nat) (file : File) (next : Nat) : Keeps (SameWork v) (recordExtent h file next) := by
  unfold recordExtent beginExtentMetadata writeExtentMetadata noteDataLen
  infer_instance

/-- `fffs_begin_extent_metadata` of the root. -/
theorem Drafting.begin (hd : Drafting S c n x d h k s win f f.image.length old st bad v w) :
    ∃ w', (recordExtent h (w.files h) 0).run w = (.ok (), w') ∧ SameWork w w' ∧
      Begun S c n k s win f (st.items s) v w' := by
  obtain ⟨hs, hgood, hwin⟩ := hd.takes
  change Vacant S (st.items s) k allocMinUsableFree win at hwin
  have hf := hd.stored.filed s hs hgood
  obtain ⟨hlen, hsize, hoff, hlt⟩ := hwin.encodable hf hd.stored.small hd.fits hd.slot hd.name
  obtain ⟨-, -, himage⟩ := hd.capacity
  have hencodable : (begunRecord k win f).Encodable :=
    ⟨hlt, (by decide : uint16Max < 65536), (by decide : uint16Max < 65536), hoff, hlen,
      (by decide : 4294967295 < 4294967296), (by decide : false = stateIsLive blank)⟩
  have hnoted : Drafting S c n x d h k s win f f.image.length old st bad v
      ((note (.narrow [(w.files h).rootPayloadOffset + (w.files h).currentDataLen])).run w).2 :=
    hd.congr rfl rfl hd.file
  have hnew := hnoted.data
  rw [List.take_length] at hnew
  obtain ⟨w', hrun, hin, hrecorded, hdata, hdata2⟩ := hf.programRecord hwin hd.fits hnoted.inside hnew hencodable
    (.inl rfl)
  have hall : (recordExtent h (w.files h) 0).run w = (.ok (), w') := by
    have hpayload : u16 ((w.files h).rootPayloadOffset + (w.files h).currentDataLen) = f.image.length := by
      rw [hd.file.payload, hd.file.dataLen, ← himage, u16_of_lt hlen]
    rw [recordExtent, hd.file.current, if_pos hd.file.spanHead.symm, beginExtentMetadata,
      bind_of_ok (run_getFile h w), noteDataLen, File.mdType, File.logicalDataLen, hd.file.head, if_pos rfl,
      if_pos rfl, if_pos rfl, when_pos rfl, bind_of_ok (run_note _ w), hpayload, hd.file.slot, hd.file.dataOffset,
      hd.file.metadataOffset, hd.file.needsFooter]
    exact hrun
  have hwork := (inferInstance : Keeps (SameWork w) (recordExtent h (w.files h) 0)).keeps w .refl
  rw [hall] at hwork
  exact ⟨w', hall, hwork, hin, hrecorded, hdata, hdata2⟩

omit [Opts] in
/-- The programs of `fffs_finish_extent_metadata` commit the record of the root. -/
theorem Begun.programs (hb : Begun S c n k s win f es v w) (hf : Filed S c n s es v)
    (hwin : Vacant S es k minFree win) (hS : S ≤ 65536) (hfit : win.dataOff + f.image.length ≤ win.recordOff)
    (hslot : NameSlot k) (hname : NameOk f.name) :
    ∃ w1 w2 w3, (programAligned (s * S + win.recordOff + 3) (storeLe16 0 ++ storeLe16 1)).run w = (.ok (), w1) ∧
      (programAligned (s * S + win.recordOff + 11) (storeLe32 f.bytes.length)).run w1 = (.ok (), w2) ∧
      (programAligned (s * S + win.recordOff) [lifecycleValid]).run w2 = (.ok (), w3) ∧
      Inside S s 0 S v w3 ∧ Filed S c n s (es ++ [rootEntry k win f]) w3 ∧ w3.fs = w.fs ∧ w3.files = w.files := by
  obtain ⟨hlen, hsize, -, -⟩ := hwin.encodable hf hS hfit hslot hname
  have hle := hwin.record_le hf
  have hge := hb.recorded.place.size_ge
  rw [mdFileRecordSize, sectorFooterSize] at hle
  have hp := hb.recorded.place
  have hrun1 := @SectorAt.program _ _ _ _ _ hp (win.recordOff + 3) (storeLe16 0 ++ storeLe16 1)
    (by change win.recordOff + 3 + 4 ≤ S; omega)
  have hin1 := @Inside.program _ _ _ _ _ _ hb.inside (win.recordOff + 3) (storeLe16 0 ++ storeLe16 1) (Nat.zero_le _)
    (by change win.recordOff + 3 + 4 ≤ S; omega)
  generalize hw1 : w.withMem (Nor.program w.dev.mem (s * S + (win.recordOff + 3)) (storeLe16 0 ++ storeLe16 1)) [] = w1
    at hrun1 hin1
  have hp1 := hin1.place (hf.recorded.place)
  have hrun2 := @SectorAt.program _ _ _ _ _ hp1 (win.recordOff + 11) (storeLe32 f.bytes.length)
    (by change win.recordOff + 11 + 4 ≤ S; omega)
  have hin2 := @Inside.program _ _ _ _ _ _ hin1 (win.recordOff + 11) (storeLe32 f.bytes.length) (Nat.zero_le _)
    (by change win.recordOff + 11 + 4 ≤ S; omega)
  generalize hw2 : w1.withMem (Nor.program w1.dev.mem (s * S + (win.recordOff + 11)) (storeLe32 f.bytes.length)) [] =
    w2 at hrun2 hin2
  have hp2 := hin2.place (hf.recorded.place)
  have hrun3 := @SectorAt.program _ _ _ _ _ hp2 win.recordOff [lifecycleValid]
    (by change win.recordOff + 1 ≤ S; omega)
  have hin3 := @Inside.program _ _ _ _ _ _ hin2 win.recordOff [lifecycleValid] (Nat.zero_le _)
    (by change win.recordOff + 1 ≤ S; omega)
  generalize hw3 : w2.withMem (Nor.program w2.dev.mem (s * S + win.recordOff) [lifecycleValid]) [] = w3 at hrun3 hin3
  rw [← Nat.add_assoc] at hrun1 hrun2
  have hfinishes : (begunRecord k win f).Finishes c n s 0 1 (some f.bytes.length) true :=
    ⟨.inl ⟨rfl, rfl⟩, fun _ _ => .inl rfl, by decide, by decide, fun size hsize' => by
      cases hsize'
      exact hsize, fun _ => ⟨by decide, hp.lt, .inl rfl⟩⟩
  obtain ⟨hrecorded, -⟩ := @Recorded.finish _ _ _ _ _ _ _ _ _ _ [] _ _ w3 hb.recorded rfl hfinishes (by
    rw [show (begunRecord k win f).recordStart = win.recordOff from rfl, bind_of_ok hrun1]
    change (do
      programAligned (s * S + win.recordOff + 11) (storeLe32 f.bytes.length)
      Prog.when true (programAligned (s * S + win.recordOff) [lifecycleValid]) : M Unit).run w1 = _
    rw [bind_of_ok hrun2]
    exact hrun3)
  have hfree : ∀ {off len : Nat}, off + len ≤ win.dataOff + f.image.length →
      Nor.read w3.dev.mem (s * S + off) len = Nor.read w.dev.mem (s * S + off) len := by
    intro off len hoff
    subst hw3 hw2 hw1
    change Nor.read (Nor.program (Nor.program (Nor.program _ _ _) _ _) _ _) _ _ = _
    rw [Nor.read_program_of_disjoint (.inl (by omega)), Nor.read_program_of_disjoint (.inl (by omega)),
      Nor.read_program_of_disjoint (.inl (by omega))]
  refine ⟨w1, w2, w3, hrun1, hrun2, hrun3, hin3, ?_, ?_, ?_⟩
  · refine Filed.append hwin hslot hname hrecorded hf.whole (fun e he => ?_) ?_
    · have hend := (hf.length_le he).1
      have hoff := hwin.off
      rw [MdRecord.dataEnd] at hend
      rw [hfree (by omega), hb.data e he]
    · rw [hfree le_rfl, hb.new]
  · subst hw3 hw2 hw1
    rfl
  · subst hw3 hw2 hw1
    rfl

omit [Opts] in
/-- The record that has been begun is the one that is not committed. -/
theorem Begun.readUncommitted (hb : Begun S c n k s win f es v w) (hf : Filed S c n s es v)
    (hwin : Vacant S es k minFree win) :
    (readUncommittedMetadataForSlot s k).run w = (.ok (begunRecord k win f), w) := by
  have hend : claimedEnd 0 (records es ++ [begunRecord k win f]) = win.dataOff + f.image.length := by
    rw [claimedEnd_append, ← hwin.off]
    exact Nat.max_eq_right (Nat.le_add_right _ _)
  obtain ⟨err, -, hrun⟩ := @Recorded.readMdBy _ _ _ _ k _ _ (hend ▸ hb.recorded) .uncommitted
  have hnone : (records es).find? (fun r => mdRecordMatchesSlot r k .uncommitted) = none := by
    refine List.find?_eq_none.mpr fun r hr hmatch => ?_
    obtain ⟨e, he, rfl⟩ := List.mem_map.mp hr
    rw [mdRecordMatchesSlot, Bool.and_eq_true, beq_iff_eq, beq_iff_eq] at hmatch
    exact (hf.whole e he).state hmatch.2
  have hself : mdRecordMatchesSlot (begunRecord k win f) k .uncommitted = true := by
    rw [mdRecordMatchesSlot, Bool.and_eq_true, beq_iff_eq, beq_iff_eq]
    exact ⟨rfl, rfl⟩
  rw [readUncommittedMetadataForSlot, hrun, List.find?_append, hnone, Option.none_or, List.find?_singleton, hself]
  rfl

/-- The table of the index has room for the record of a root. -/
theorem Stored.tableRoom (hs : Stored S c n st bad w) (hk : NameSlot k) (hdata : InData n c s)
    (hroom : Opts.indexCacheMode = .hashHeads → st.head k ≠ none ∨ hashRoom w.fs) : tableRoom w ⟨k, s⟩ := by
  intro hmode
  refine (hroom hmode).imp_left fun hhead => ⟨fun hno => ?_, fun hno => ?_⟩
  · rw [slotHead, hs.headForSlot hk.1] at hno
    exact absurd (Except.ok.inj hno) hhead
  · exact absurd hno (Nat.ne_of_gt (hs.pos.trans_le hdata.1))

/-- `fffs_finish_extent_metadata` of the root commits the file, unless the index is full. -/
theorem Begun.finish_run (hb : Begun S c n k s win f (st.items s) v w) (hstored : Stored S c n st bad v)
    (htakes : Offers S c n st bad k minFree (s, win)) (hfit : win.dataOff + f.image.length ≤ win.recordOff)
    (hslot : NameSlot k) (hname : NameOk f.name) (hfile : (w.files h).slot = k) (hhead : (w.files h).head = s)
    (hroom : Opts.indexCacheMode = .hashHeads → st.head k ≠ none ∨ hashRoom v.fs) :
    ∃ w', SameWork w w' ∧
      ((finishExtentMetadata h s 0 1 (some f.bytes.length) true true).run w = (.ok (), w') ∧
          Stored S c n (st.add s (rootEntry k win f)) bad w' ∨
        (finishExtentMetadata h s 0 1 (some f.bytes.length) true true).run w = (.error .noSpace, w')) := by
  obtain ⟨hs, hgood, hwin⟩ := htakes
  change Vacant S (st.items s) k minFree win at hwin
  have hf := hstored.filed s hs hgood
  obtain ⟨w1, w2, w3, hrun1, hrun2, hrun3, hin, hfiled, hfs, hfiles⟩ :=
    hb.programs hf hwin hstored.small hfit hslot hname
  -- the root is on the flash, and the index does not point to it
  have hshelved := hstored.sector hin le_rfl hs (fun t _ => @Iff.rfl (bad t)) (fun _ => hfiled)
    fun hb => absurd hb hgood
  have hstray : Stored S c n (st.stray s (rootEntry k win f)) bad w3 := by
    refine ⟨hshelved, fun hactive => ?_⟩
    rw [hin.walk_eq] at hactive ⊢
    exact (hstored.walk hactive).add s _
  have hroom3 : tableRoom w3 ⟨k, s⟩ := by
    refine hstray.tableRoom hslot hs fun hmode => (hroom hmode).imp id fun hempty => ?_
    have hsize := hin.view Fs.indexHashTableSize fun _ => rfl
    have hbuckets := hin.view Fs.buckets fun _ => rfl
    rw [hashRoom, hsize, hbuckets]
    exact hempty
  have hread := hb.readUncommitted hf hwin
  have hfront : ∀ {α : Type} (y : M α), (do
      programAligned (s * S + win.recordOff + 3) (storeLe16 0 ++ storeLe16 1)
      programAligned (s * S + win.recordOff + 11) (storeLe32 f.bytes.length)
      programAligned (s * S + win.recordOff) [lifecycleValid]
      y : M α).run w = y.run w3 := by
    intro α y
    rw [bind_of_ok hrun1, bind_of_ok hrun2, bind_of_ok hrun3]
  have hsame3 : SameWork w w3 :=
    ⟨hfiles, by rw [hfs], by rw [hfs], by rw [hfs], by rw [hfs], by rw [hfs], by rw [hfs]⟩
  have hfinish : (finishExtentMetadata h s 0 1 (some f.bytes.length) true true).run w = (do
      appendIndexRecord k s
      pure () : M Unit).run w3 := by
    rw [finishExtentMetadata, bind_of_ok (run_getFile h w), bind_of_ok (run_getFs w), hfile, bind_of_ok hread,
      hb.recorded.place.sectorSize, hhead,
      when_neg (c := s = s ∧ (0 ≠ 0 ∨ 1 > 1)) (fun hno => hno.2.elim (absurd rfl) (by decide))]
    exact hfront _
  obtain ⟨w4, hsame4, -, ⟨happend, hstored4⟩ | ⟨happend, -⟩⟩ := hstray.appendIndex hslot (.inr hs) hroom3
  · have hadd : { st.stray s (rootEntry k win f) with head := Function.update st.head k (headOf s) } =
        st.add s (rootEntry k win f) := by
      rw [headOf, if_neg (Nat.ne_of_gt (hstored.pos.trans_le hs.1))]
      rfl
    change Stored S c n { st.stray s (rootEntry k win f) with head := Function.update st.head k (headOf s) } bad w4
      at hstored4
    rw [hadd] at hstored4
    exact ⟨w4, hsame3.trans hsame4, .inl ⟨by rw [hfinish, bind_of_ok happend]; rfl, hstored4⟩⟩
  · exact ⟨w4, hsame3.trans hsame4, .inr (by rw [hfinish, bind_of_error happend])⟩

omit [Opts] in
theorem dataFs_noteAdd (size : Nat) (fs : Fs) : dataFs (fsinfoNoteCommittedAdd size fs) = dataFs fs := by
  rw [fsinfoNoteCommittedAdd]
  split <;> rfl

/-- The version before is in another sector than the new one. -/
theorem Drafting.old_ne (hd : Drafting S c n x d h k s win f flushed old st bad v w) : old ≠ s := by
  rintro rfl
  obtain ⟨hs, -, hwin⟩ := hd.takes
  have hpos : old ≠ 0 := Nat.ne_of_gt (hd.stored.pos.trans_le hs.1)
  obtain ⟨e, he, hfor⟩ := hd.tidy.held k old (by rw [hd.current, headOf, if_neg hpos])
  obtain ⟨hlive, hkey⟩ := Item.liveFor_iff.mp hfor
  exact hwin.lacks e he hlive hkey

/-- The shelves after the commit of the file. -/
def committed (st : Shelves Nat Nat Entry) (k s : Nat) (win : FreeWindow) (f : SmallFile) (old : Nat) :
    Shelves Nat Nat Entry :=
  if old = 0 then st.add s (rootEntry k win f) else (st.add s (rootEntry k win f)).retire old k

/-- The file is the current one of its slot. -/
theorem Drafting.committed (hd : Drafting S c n x d h k s win f flushed old st bad v w) :
    (committed st k s win f old).Tidy ∧ (x → (committed st k s win f old).Exact) ∧
      (committed st k s win f old).get = Function.update d.slot k (some f) := by
  have hnew : Item.Lacks k (st.items s) := hd.takes.2.2.lacks
  have hget := hd.get
  rw [Fastffs.committed]
  split
  · next h0 =>
    have hbut := hd.tidy.but (hd.current.trans (headOf_eq_none.mpr h0))
    refine ⟨hbut.add (e := rootEntry k win f) rfl, fun hx => (hd.exact hx).add (e := rootEntry k win f) hbut.lacks, ?_⟩
    rw [← hget]
    exact Shelves.get_add (e := rootEntry k win f) rfl hnew
  · refine ⟨hd.tidy.replace (e := rootEntry k win f) hd.only hd.old_ne rfl,
      fun hx => (hd.exact hx).replace (e := rootEntry k win f) hd.tidy hd.only hd.old_ne, ?_⟩
    rw [← hget]
    exact Shelves.get_replace (e := rootEntry k win f) hd.old_ne rfl hnew

/-- The version before is tombstoned. -/
theorem Drafting.retireOld (hd : Drafting S c n x d h k s win f flushed old st bad v w)
    (heager : Opts.lazyDeleteTombstones = false) (hs : Stored S c n (st.add s (rootEntry k win f)) bad w') :
    ∃ w2, (Prog.when (old ≠ 0) (invalidateCommitted k old 0)).run w' = (.ok (), w2) ∧
      Stored S c n (Fastffs.committed st k s win f old) bad w2 ∧ SameWork w' w2 := by
  rw [Fastffs.committed]
  split
  · next h0 =>
    rw [when_neg (not_not.mpr h0)]
    exact ⟨w', rfl, hs, .refl⟩
  · next h0 =>
    have hhead : st.head k = some old := by rw [hd.current, headOf, if_neg h0]
    obtain ⟨hdata, hgood, -⟩ := hd.stored.toShelved.head_data hd.tidy hhead
    obtain ⟨e, hfind, -⟩ := hd.tidy.find hhead
    have hitems : (st.add s (rootEntry k win f)).items old = st.items old := by
      rw [Shelves.add_items, if_neg hd.old_ne]
    obtain ⟨w2, hrun, hstored, hsame⟩ := hs.invalidate heager hdata hgood (hitems ▸ hfind)
    rw [when_pos h0]
    exact ⟨w2, hrun, hstored, hsame⟩

/-- The commit of `fffs_close`. -/
theorem Drafting.closeWriter (hd : Drafting S c n x d h k s win f flushed old st bad v w)
    (hb : (w.files h).Buffers win f flushed) (heager : Opts.lazyDeleteTombstones = false)
    (hroom : Opts.indexCacheMode = .hashHeads → old ≠ 0 ∨ hashRoom w.fs) :
    ∃ w', (closeWriter h).run w = (.error .noSpace, w') ∨ (closeWriter h).run w = (.ok (), w') ∧
      Stored S c n (Fastffs.committed st k s win f old) bad w' ∧ w'.fs.openFiles = [h] := by
  obtain ⟨w1, hflush, hd1⟩ := hd.flushAll hb
  obtain ⟨w2, hrecord, hsame2, hbegun⟩ := hd1.begin
  have hfile2 : w2.files h = w1.files h := by rw [hsame2.files]
  have hroom2 : Opts.indexCacheMode = .hashHeads → st.head k ≠ none ∨ hashRoom v.fs := by
    refine fun hmode => (hroom hmode).imp (fun h0 => ?_) fun hempty => ?_
    · rw [hd.current, headOf, if_neg h0]
      exact fun hno => by cases hno
    · have hsize := hd.inside.view Fs.indexHashTableSize fun _ => rfl
      have hbuckets := hd.inside.view Fs.buckets fun _ => rfl
      rw [hashRoom, ← hsize, ← hbuckets]
      exact hempty
  have hrefresh : (refreshOldHead h).run w2 = (.ok (), w2) := by
    rw [refreshOldHead, bind_of_ok (run_getFile h w2), hfile2, hd1.file.oldHead, hd1.file.head, if_neg hd.old_ne]
    rfl
  have hspos : s ≠ 0 := Nat.ne_of_gt (hd.stored.pos.trans_le hd.takes.1.1)
  have hspan : pendingSpanLen (w2.files h) = 1 := by
    rw [pendingSpanLen, hfile2, hd1.file.current, hd1.file.spanHead, u16]
    omega
  have hnote : (note (.narrow [pendingSpan (w2.files h)])).run w2 =
    (.ok (), ((note (.narrow [pendingSpan (w2.files h)])).run w2).2) := rfl
  have hbegun3 : Begun S c n k s win f (st.items s) v ((note (.narrow [pendingSpan (w2.files h)])).run w2).2 :=
    ⟨{ hbegun.inside with }, { hbegun.recorded with place := { hbegun.recorded.place with } }, hbegun.data,
      hbegun.new⟩
  have hfile3 : ((note (.narrow [pendingSpan (w2.files h)])).run w2).2.files h = w1.files h := hfile2
  have hopen3 : ((note (.narrow [pendingSpan (w2.files h)])).run w2).2.fs.openFiles = [h] := by
    change w2.fs.openFiles = [h]
    rw [hsame2.openFiles, hd1.inside.view Fs.openFiles fun _ => rfl, hd.openFiles]
  generalize ((note (.narrow [pendingSpan (w2.files h)])).run w2).2 = w3 at hnote hbegun3 hfile3 hopen3
  have hpending : (flushPendingSpanHead h 0 true).run w2 = (do
      finishExtentMetadata h s 0 1 (some f.bytes.length) true true
      modifyFile h fun f => { f with spanHead := 0 } : M Unit).run w3 := by
    rw [flushPendingSpanHead, bind_of_ok (run_getFile h w2), if_neg (by rw [hfile2, hd1.file.spanHead]; exact hspos),
      bind_of_ok hnote, hspan, hfile2, hd1.file.spanHead, hd1.file.head, hd1.file.size, beq_self_eq_true]
    rfl
  have hdirect : (decide ((w1.files h).current ≠ (w1.files h).head) &&
      decide ((w1.files h).spanHead ≠ (w1.files h).head)) = false := by
    rw [hd1.file.current, hd1.file.head, decide_eq_false (not_not.mpr rfl)]
    rfl
  have hfront : (Fastffs.closeWriter h).run w = (do
      flushPendingSpanHead h 0 true
      let file ← getFile h
      modifyFs (fsinfoNoteCommittedAdd file.size)
      Prog.when (file.oldHead ≠ 0) (invalidateCommitted file.slot file.oldHead file.oldNext) : M Unit).run w2 := by
    rw [Fastffs.closeWriter, bind_of_ok hflush, bind_of_ok (run_getFile h w1), bind_of_ok hrecord]
    dsimp only
    rw [hdirect, bind_of_ok hrefresh]
    rfl
  obtain ⟨w4, hsame4, ⟨hfinish, hstored4⟩ | hfinish⟩ := hbegun3.finish_run (h := h) hd.stored hd.takes hd.fits
    hd.slot hd.name (hfile3 ▸ hd1.file.slot) (hfile3 ▸ hd1.file.head) hroom2
  · have hfile4 : w4.files h = w1.files h := by rw [hsame4.files, hfile3]
    have hset : (modifyFile h fun f => { f with spanHead := 0 }).run w4 =
      (.ok (), ((modifyFile h fun f => { f with spanHead := 0 }).run w4).2) := rfl
    have hfile5 : ((modifyFile h fun f => { f with spanHead := 0 }).run w4).2.files h =
        { w1.files h with spanHead := 0 } := by
      change (if h = h then _ else w4.files h) = _
      rw [if_pos rfl, hfile4]
    have hstored5 : Stored S c n (st.add s (rootEntry k win f)) bad
        ((modifyFile h fun f => { f with spanHead := 0 }).run w4).2 :=
      hstored4.ofSame (fun _ => ⟨id, rfl, rfl, fun _ _ => rfl, rfl⟩) hstored4.walk
    have hopen5 : ((modifyFile h fun f => { f with spanHead := 0 }).run w4).2.fs.openFiles = [h] :=
      hsame4.openFiles.trans hopen3
    have hcommit : (flushPendingSpanHead h 0 true).run w2 =
        (.ok (), ((modifyFile h fun f => { f with spanHead := 0 }).run w4).2) := by
      rw [hpending, bind_of_ok hfinish]
      rfl
    generalize ((modifyFile h fun f => { f with spanHead := 0 }).run w4).2 = w5 at hfile5 hstored5 hopen5 hcommit
    have hin : Keeps (Inside S 0 0 0 w5) (modifyFs (fsinfoNoteCommittedAdd (w5.files h).size)) :=
      keeps_insideFs fun fs => dataFs_noteAdd _ fs
    have hwork : Keeps (SameWork w5) (modifyFs (fsinfoNoteCommittedAdd (w5.files h).size)) :=
      keeps_dataFs fun fs => dataFs_noteAdd _ fs
    obtain ⟨hstored6, hsame6⟩ := hstored5.keeps (x := modifyFs (fsinfoNoteCommittedAdd (w5.files h).size))
    obtain ⟨w7, hretire, hstored7, hsame7⟩ := hd.retireOld heager hstored6
    refine ⟨w7, .inr ⟨?_, hstored7, ?_⟩⟩
    · have hold : (w5.files h).oldHead = old := by rw [hfile5]; exact hd1.file.oldHead
      have hslot : (w5.files h).slot = k := by rw [hfile5]; exact hd1.file.slot
      have hnext : (w5.files h).oldNext = 0 := by rw [hfile5]; exact hd1.file.oldNext
      rw [hfront, bind_of_ok hcommit, bind_of_ok (run_getFile h w5), bind_of_ok (run_modifyFs _ w5), hold, hslot,
        hnext]
      exact hretire
    · rw [hsame7.openFiles, hsame6.openFiles, hopen5]
  · exact ⟨w4, .inl (by rw [hfront, bind_of_error (by rw [hpending, bind_of_error hfinish])])⟩

/-- `fffs_alloc_release_reservation` does not fail. -/
theorem allocReleaseReservation_ok (h : Nat) (w : World) :
    (allocReleaseReservation h).run w = (.ok (), ((allocReleaseReservation h).run w).2) := by
  refine run_eq_of_fst ?_
  have hmark : ∀ (first count : Nat) (w : World), ((allocMapMarkRangeUnknown first count).run w).1 = .ok () := by
    intro first count
    induction count generalizing first with
    | zero => exact fun _ => rfl
    | succ count ih => exact fun w => ih _ _
  rw [allocReleaseReservation, bind_of_ok (run_getFile h w)]
  split
  · rfl
  · rw [bind_of_ok (run_eq_of_fst (hmark _ _ w))]
    rfl

theorem Stored.release (hs : Stored S c n st bad w) (h : Nat) :
    Stored S c n st bad ((allocReleaseReservation h).run w).2 ∧
      ((allocReleaseReservation h).run w).2.fs.openFiles = w.fs.openFiles := by
  rw [allocReleaseReservation, bind_of_ok (run_getFile h w)]
  split
  · exact ⟨hs, rfl⟩
  · obtain ⟨hstored, hsame⟩ :=
      hs.keeps (x := allocMapMarkRangeUnknown (w.files h).reserveFirst (w.files h).reserveCount)
    cases hrun : (allocMapMarkRangeUnknown (w.files h).reserveFirst (w.files h).reserveCount).run w with
    | mk r w1 =>
      rw [hrun] at hstored hsame
      cases r with
      | ok _ =>
        rw [bind_of_ok hrun]
        exact ⟨hstored.ofSame (fun _ => ⟨id, rfl, rfl, fun _ _ => rfl, rfl⟩) hstored.walk, hsame.openFiles⟩
      | error _ =>
        rw [bind_of_error hrun]
        exact ⟨hstored, hsame.openFiles⟩

/-- `fffs_close` of a handle that writes commits its file, unless the index has no room for the
record. -/
theorem Composing.close_run (hw : Composing S c n x d h f w) (heager : Opts.lazyDeleteTombstones = false)
    (hroom : Opts.indexCacheMode = .hashHeads → (w.files h).oldHead ≠ 0 ∨ hashRoom w.fs) :
    (∃ w', (close h).run w = (.error .noSpace, w')) ∨
      ∃ (k : Nat) (hk : d.Target f.name k) (w' : World), (close h).run w = (.ok (), w') ∧
        Kept S c n x (d.put k f hk).slot w' := by
  obtain ⟨k, s, win, flushed, old, st, bad, v, hd, hb, -⟩ := hw
  rw [hd.file.oldHead] at hroom
  have hclose : ∀ {r : Except Status Unit} {w1 : World}, (closeWriter h).run w = (r, w1) →
      (close h).run w = (do
        unregisterOpenFile h
        modifyFile h fun f => { f with closed := true }
        Prog.ofExcept r : M Unit).run ((allocReleaseReservation h).run w1).2 := by
    intro r w1 hrun
    have hcommit : (closeCommit h).run w = (.ok r, ((allocReleaseReservation h).run w1).2) := by
      rw [closeCommit, bind_of_ok (by rw [run_attempt, hrun]), bind_of_ok (allocReleaseReservation_ok h w1)]
      rfl
    rw [close, bind_of_ok (run_getFile h w), if_neg (by rw [hd.file.closed]; decide), if_pos hd.file.access,
      bind_of_ok hcommit]
  obtain ⟨w1, hfail | ⟨hok, hstored, hopen⟩⟩ := hd.closeWriter hb heager hroom
  · exact .inl ⟨_, hclose hfail⟩
  · obtain ⟨hreleased, hopen2⟩ := hstored.release h
    rw [hopen] at hopen2
    have hrun := hclose hok
    generalize ((allocReleaseReservation h).run w1).2 = w2 at hreleased hopen2 hrun
    obtain ⟨htidy, hexact, hget⟩ := hd.committed
    have hholds : Holds S c n x (Function.update d.slot k (some f)) (Fastffs.committed st k s win f old) bad
        ((unregisterOpenFile h).run w2).2 := by
      refine ⟨?_, hreleased.setFs rfl hreleased.walk, htidy, hexact, hget⟩
      change w2.fs.openFiles.erase h = []
      rw [hopen2, List.erase_cons_head]
    exact .inr ⟨k, hd.target, _, hrun, _, bad, hholds.setFile (h := h) (g := fun f => { f with closed := true })⟩

end Close

/-! ## Delete -/

section Delete

variable [Opts] {S c n : Nat} {x : Prop} {d : Directory} {w : World} {name : List Byte}

/-- The slot that a lookup has found has no other live root than its current one. -/
def Resolved.alone (w : World) (r : Resolved) : Prop :=
  ∀ found, r.root = some found → soleRoot w r.slot found.1

/-- The name has no other live root than its current one. -/
def nameAlone (w : World) (name : List Byte) : Prop :=
  ∀ r, ((indexResolve name false).run w).1 = .ok r → r.alone w

/-- `fffs_delete_file` removes the file of the name, and it changes nothing when there is none or the index has
no room for the record. -/
theorem Kept.delete_run (hk : Kept S c n x d.slot w) (heager : Opts.lazyDeleteTombstones = false)
    (halone : x ∨ nameAlone w name) (hroom : Opts.indexCacheMode = .hashHeads → hashRoom w.fs) :
    (∃ err w', (deleteFile name).run w = (.error err, w') ∧
        (d.lookup name).map (fun _ => ()) = .error err ∧ Kept S c n x d.slot w') ∨
      ∃ f w', d.lookup name = .ok f ∧
        ((deleteFile name).run w = (.error .noSpace, w') ∧ Kept S c n x d.slot w' ∨
          ∃ k, d.find (cstr name) = some k ∧ (deleteFile name).run w = (.ok (), w') ∧
            Kept S c n x (d.remove k).slot w') := by
  obtain ⟨st, bad, hh⟩ := hk
  obtain ⟨r, hlooked, hrun⟩ := hh.looked name false
  rw [deleteFile]
  generalize d.lookup name = found at hlooked
  cases hlooked with
  | refused => exact .inl ⟨_, w, bind_of_error hrun, rfl, hh.kept⟩
  | absent => exact .inl ⟨_, w, by rw [bind_of_ok hrun]; rfl, rfl, hh.kept⟩
  | @present k p e hname hfind hp he =>
    obtain ⟨e', hmem, hfound, hcur, hfiled⟩ := hh.stored.toShelved.current hh.tidy hp
    rw [he] at hcur
    cases hcur
    obtain ⟨hdata, hgood, hslot⟩ := hh.stored.toShelved.head_data hh.tidy hp
    have honly : st.OnlyOn k p := by
      rcases halone with hx | halone
      · exact (hh.exact hx).onlyOn hp
      · exact hh.stored.onlyOn (halone _ (congrArg Prod.fst hrun) _ rfl)
    have htable : tableRoom w ⟨k, 0⟩ := fun hmode => .inr (hroom hmode)
    obtain ⟨w1, hsame1, -, ⟨happend, hstored1⟩ | ⟨happend, hstored1⟩⟩ := hh.stored.appendIndex hslot (.inl rfl) htable
    · change Stored S c n (st.forget k) bad w1 at hstored1
      obtain ⟨w2, hinvalidate, hstored2, hsame2⟩ := hstored1.invalidate heager hdata hgood hfound
      have hdrop := hh.tidy.drop honly
      have hget : ((st.retire p k).forget k).get = (d.remove k).slot := by
        rw [Shelves.get_forget]
        funext j
        change _ = Function.update d.slot k none j
        rw [Function.update_apply, Function.update_apply]
        split
        · rfl
        · next hj => rw [Shelves.get_retire_of_ne hj, hh.get]
      refine .inr ⟨e.file, w2, rfl, .inr ⟨k, hfind, ?_, (st.retire p k).forget k, bad, ?_⟩⟩
      · rw [bind_of_ok hrun]
        dsimp only
        rw [bind_of_ok happend]
        exact hinvalidate
      · exact ⟨hsame2.openFiles.trans (hsame1.openFiles.trans hh.idle), hstored2, hdrop.forget,
          fun hx => (hh.exact hx).retire.forget hdrop.lacks, hget⟩
    · refine .inr ⟨e.file, w1, rfl, .inl ⟨?_, st, bad, hsame1.openFiles.trans hh.idle, hstored1, hh.tidy, hh.exact,
        hh.get⟩⟩
      rw [bind_of_ok hrun]
      dsimp only
      exact bind_of_error happend

end Delete

end Fastffs
