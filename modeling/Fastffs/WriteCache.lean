import Fastffs.AlignedProgram
import Fastffs.Handles
import Fastffs.IndexHistory
import Fastffs.OwnershipRun

/-!
# The write cache

A writer takes bytes into a cache of 256 bytes and programs them from its write offset on.
Before the last flush of an extent, the write offset, the bytes in the cache and the room
that is left add up to the metadata offset at most (`File.Window`).  The last flush pads the
cache to the granule.  The padding stays inside the sector as long as the metadata offset
leaves a whole granule, or the write offset is aligned.

`Writers` says this of every open writer, in every state of every call.  `watched_run` reads
off what holds at each flush and at each conversion to sixteen bits.
-/

namespace Fastffs

open Prog
open Nor (Byte blank)

/-! ## One handle -/

/-- The bytes of the name in front of the data, in the root. -/
def File.prefixLen (file : File) : Nat := if file.current = file.head then file.rootPayloadOffset else 0

/-- The window of the extent, for granule `g` and sectors of `S` bytes.  The record and the
footer lie behind it, and another record unless the writes are aligned. -/
structure File.Window (g S : Nat) (file : File) : Prop where
  edge : file.currentMetadataOffset + 42 ≤ S ∨
    g ∣ file.currentWriteOffset ∧ file.currentMetadataOffset + 26 ≤ S
  room : file.currentWriteOffset + file.cache.length + (currentExtentCapacity file - file.currentDataLen) ≤
    file.currentMetadataOffset

/-- The cache is not too long, and what the writer still takes into it fits in the window.  An
extent that is over takes nothing. -/
structure File.Room (g S : Nat) (file : File) : Prop where
  cache_le : file.cache.length ≤ fileCacheSize
  window : file.cache = [] ∧ currentExtentCapacity file ≤ file.currentDataLen ∨ file.Window g S

/-- The numbers of a writer that do not depend on its window, for `c` sectors. -/
structure File.Sized (c : Nat) (file : File) : Prop where
  current_lt : file.current < c
  span_le : file.spanHead ≤ file.current
  prefix_le : file.rootPayloadOffset ≤ maxName + 2
  data_lt : file.prefixLen + file.currentDataLen < 65536

section Handle

variable {g S c : Nat} {file file' : File} {bs : List Byte}

theorem File.Room.congr (hsame : file'.unreserved = file.unreserved) (h : file.Room g S) : file'.Room g S := by
  have hun : file.unreserved.Room g S := ⟨h.cache_le, h.window.imp id fun hw => ⟨hw.edge, hw.room⟩⟩
  rw [← hsame] at hun
  exact ⟨hun.cache_le, hun.window.imp id fun hw => ⟨hw.edge, hw.room⟩⟩

theorem File.Sized.congr (hsame : file'.unreserved = file.unreserved) (h : file.Sized c) : file'.Sized c := by
  have hun : file.unreserved.Sized c := ⟨h.current_lt, h.span_le, h.prefix_le, h.data_lt⟩
  rw [← hsame] at hun
  exact ⟨hun.current_lt, hun.span_le, hun.prefix_le, hun.data_lt⟩

theorem currentExtentCapacity_eq (file : File) :
    currentExtentCapacity file = file.currentMetadataOffset - file.dataOffset - file.prefixLen := rfl

theorem File.Window.meta_le (h : file.Window g S) : file.currentMetadataOffset + 26 ≤ S := by
  rcases h.edge with hle | ⟨-, hle⟩
  · omega
  · exact hle

/-- A cache with bytes in it has its window. -/
theorem File.Room.window_of_cache (h : file.Room g S) (hne : file.cache ≠ []) : file.Window g S :=
  h.window.resolve_left fun hover => hne hover.1

/-- Bytes that the extent and the cache have room for. -/
def File.fits (file : File) (bs : List Byte) : Prop :=
  bs.length ≤ min (currentExtentCapacity file - file.currentDataLen) (fileCacheSize - file.cache.length)

/-- A sum of sixteen bits after the writer has taken bytes. -/
theorem File.Room.data_lt (h : file.Room g S) (hsized : file.Sized c) (hS : S ≤ 65536) (hfit : file.fits bs) :
    file.prefixLen + (file.currentDataLen + bs.length) < 65536 := by
  have hdata := hsized.data_lt
  have hcap := currentExtentCapacity_eq file
  rw [File.fits] at hfit
  rcases h.window with ⟨-, hover⟩ | hwindow
  · omega
  · have hmeta := hwindow.meta_le
    omega

theorem File.Sized.take (h : file.Sized c) (hroom : file.Room g S) (hS : S ≤ 65536) (hfit : file.fits bs) :
    (file.take bs).Sized c := by
  have hlt := hroom.data_lt h hS hfit
  refine ⟨h.current_lt, h.span_le, h.prefix_le, ?_⟩
  change file.prefixLen + u16 (file.currentDataLen + bs.length) < 65536
  rw [u16_of_lt (by omega)]
  exact hlt

theorem File.Room.take (h : file.Room g S) (hsized : file.Sized c) (hS : S ≤ 65536) (hfit : file.fits bs) :
    (file.take bs).Room g S := by
  have hlt := h.data_lt hsized hS hfit
  have hdata : (file.take bs).currentDataLen = file.currentDataLen + bs.length := u16_of_lt (by omega)
  have hcache : (file.take bs).cache.length = file.cache.length + bs.length := List.length_append
  have hcap : currentExtentCapacity (file.take bs) = currentExtentCapacity file := rfl
  have hle := h.cache_le
  rw [File.fits] at hfit
  refine ⟨by rw [hcache]; omega, ?_⟩
  rcases h.window with ⟨hnil, hover⟩ | hwindow
  · have hbs : bs = [] := List.eq_nil_of_length_eq_zero (by omega)
    subst hbs
    left
    rw [hcap, hdata]
    exact ⟨by rw [File.take, hnil]; rfl, by omega⟩
  · right
    refine ⟨hwindow.edge, ?_⟩
    have hroom := hwindow.room
    rw [hcap, hdata, hcache]
    change file.currentWriteOffset + _ + _ ≤ file.currentMetadataOffset
    omega

/-! ## A flush -/

theorem flushBytes_false (g : Nat) (cache : List Byte) :
    flushBytes g false cache = cache.take (cache.length - cache.length % g) := if_neg Bool.false_ne_true

theorem flushBytes_true (g : Nat) (cache : List Byte) : flushBytes g true cache =
    cache ++ List.replicate ((g - cache.length % g) % g) blank := if_pos rfl

/-- A flush of a non-empty cache programs a multiple of the granule, less than one granule more
than the cache. -/
theorem flushBytes_length (hg : 0 < g) (final : Bool) (cache : List Byte) :
    g ∣ (flushBytes g final cache).length ∧ (flushBytes g final cache).length < cache.length + g := by
  have hmod := Nat.mod_lt cache.length hg
  have hdiv := Nat.div_add_mod cache.length g
  cases final with
  | false =>
    rw [flushBytes_false, List.length_take, Nat.min_eq_left (Nat.sub_le _ _)]
    exact ⟨Nat.dvd_sub_mod _, by omega⟩
  | true =>
    rw [flushBytes_true, List.length_append, List.length_replicate]
    by_cases hzero : cache.length % g = 0
    · rw [hzero, Nat.sub_zero, Nat.mod_self, Nat.add_zero]
      exact ⟨Nat.dvd_of_mod_eq_zero hzero, by omega⟩
    · rw [Nat.mod_eq_of_lt (show g - cache.length % g < g by omega)]
      refine ⟨⟨cache.length / g + 1, ?_⟩, by omega⟩
      rw [Nat.mul_add, Nat.mul_one]
      omega

/-- The bytes of a flush are bytes of the cache and then blank. -/
theorem flushBytes_getElem (final : Bool) (cache : List Byte) {i : Nat}
  (hi : i < (flushBytes g final cache).length)
    (hlast : cache.length ≤ i) : (flushBytes g final cache)[i] = blank := by
  cases final with
  | false =>
    simp only [flushBytes_false, List.length_take] at hi
    omega
  | true =>
    simp only [flushBytes_true]
    rw [List.getElem_append_right hlast, List.getElem_replicate]

/-- The handle after a flush that has succeeded. -/
def File.flushed (file : File) (bs : List Byte) : File :=
  { file with currentWriteOffset := u16 (file.currentWriteOffset + bs.length)
              cache := file.cache.drop bs.length }

/-- A flush between two writes keeps the room. -/
theorem File.Room.flushed (h : file.Room g S) (hS : S ≤ 65536) :
    (file.flushed (flushBytes g false file.cache)).Room g S := by
  have hlen : (flushBytes g false file.cache).length = file.cache.length - file.cache.length % g := by
    rw [flushBytes_false, List.length_take, Nat.min_eq_left (Nat.sub_le _ _)]
  have hcache : (file.flushed (flushBytes g false file.cache)).cache.length = file.cache.length % g := by
    have hmod := Nat.mod_le file.cache.length g
    rw [File.flushed, List.length_drop, hlen]
    omega
  have hmod := Nat.mod_le file.cache.length g
  have hle := h.cache_le
  refine ⟨by rw [hcache]; omega, ?_⟩
  rcases h.window with ⟨hnil, hover⟩ | hwindow
  · left
    exact ⟨by rw [File.flushed, hnil, List.drop_nil], hover⟩
  · right
    have hroom := hwindow.room
    have hmeta := hwindow.meta_le
    have hoff : (file.flushed (flushBytes g false file.cache)).currentWriteOffset =
        file.currentWriteOffset + (file.cache.length - file.cache.length % g) := by
      rw [File.flushed, hlen]
      exact u16_of_lt (by omega)
    have haligned : g ∣ file.currentWriteOffset →
        g ∣ (file.flushed (flushBytes g false file.cache)).currentWriteOffset := by
      intro hdvd
      rw [hoff]
      exact (Nat.dvd_add_right hdvd).mpr (Nat.dvd_sub_mod _)
    refine ⟨hwindow.edge.imp id fun hedge => ⟨haligned hedge.1, hedge.2⟩, ?_⟩
    rw [hoff, hcache]
    change _ + _ + (currentExtentCapacity file - file.currentDataLen) ≤ file.currentMetadataOffset
    omega

/-- The last flush empties the cache. -/
theorem flushed_nil (file : File) : (file.flushed (flushBytes g true file.cache)).cache = [] := by
  rw [File.flushed, flushBytes_true, List.length_append]
  exact List.drop_eq_nil_of_le (Nat.le_add_right _ _)

end Handle

/-! ## Every open writer -/

/-- `P` holds of the handle at a flush, and `Q` of the numbers at a conversion. -/
def Event.Meets (P : Fs → File → Bool → Prop) (Q : List Nat → Prop) (e : Event) : Prop :=
  match e.act with
  | .flush h final => P e.fs (e.files h) final
  | .narrow values => Q values
  | _ => True

/-- With `c` sectors of `S` bytes, `P` holds of a writer with room and `Q` of numbers below 65536. -/
class Watch (g S c : Nat) (P : Fs → File → Bool → Prop) (Q : List Nat → Prop) : Prop where
  size_ge : 256 ≤ S
  size_le : S ≤ 65536
  count_le : c ≤ uint16Max
  flush : ∀ {fs file final}, fs.sectorSize = S → file.current < c → file.Room g S → file.cache ≠ [] →
    P fs file final
  narrow : ∀ {values : List Nat}, (∀ v ∈ values, v < 65536) → Q values

/-- The open writers are sized, those of `roomy` have room, the handles of `busy` are open
writers, and every event is as wanted. -/
structure Writers (g S c size : Nat) (P : Fs → File → Bool → Prop) (Q : List Nat → Prop)
    (roomy busy : Nat → Prop) (w : World) : Prop where
  indexSectors_pos : 0 < w.fs.indexSectors
  sectorSize : w.fs.sectorSize = S
  sectorCount : w.fs.sectorCount = c
  chipSize : w.dev.size = size
  granule : w.dev.programGranule = g
  nodup : w.fs.openFiles.Nodup
  busy : ∀ k, busy k → k ∈ w.fs.openFiles ∧ (w.files k).access = .wronly
  sized : ∀ k ∈ w.fs.openFiles, (w.files k).access = .wronly → (w.files k).Sized c
  room : ∀ k ∈ w.fs.openFiles, roomy k → (w.files k).access = .wronly → (w.files k).Room g S
  events : ∀ e ∈ w.trace, e.Meets P Q

variable {g S c size : Nat} {P : Fs → File → Bool → Prop} {Q : List Nat → Prop} {roomy busy : Nat → Prop}
  {w w' : World} {h : Nat}

theorem Writers.note {act : Act} (hw : Writers g S c size P Q roomy busy w)
    (hact : Event.Meets P Q ⟨act, w.fs, w.files⟩) :
    Writers g S c size P Q roomy busy { w with trace := ⟨act, w.fs, w.files⟩ :: w.trace } :=
  { hw with events := List.forall_mem_cons.mpr ⟨hact, hw.events⟩ }

instance : HandleInv (Writers g S c size P Q roomy busy) where
  indexSectors_pos hw := hw.indexSectors_pos
  ofSame {w w'} hsame hw := by
    have hfile := hsame.files
    have hacc : ∀ k, (w'.files k).access = (w.files k).access :=
      fun k => (congrArg File.access (hfile k) : (w'.files k).unreserved.access = _)
    refine ⟨hsame.indexSectors ▸ hw.indexSectors_pos, hsame.sectorSize.trans hw.sectorSize,
      hsame.sectorCount.trans hw.sectorCount, hsame.chipSize.trans hw.chipSize,
      hsame.granule.trans hw.granule, hsame.openFiles ▸ hw.nodup, fun k hk => ?_, fun k hk hwr =>
        ?_, fun k hk hroomy hwr => ?_,
      hsame.trace ▸ hw.events⟩
    · rw [hsame.openFiles, hacc]
      exact hw.busy k hk
    · rw [hsame.openFiles] at hk
      rw [hacc] at hwr
      exact (hw.sized k hk hwr).congr (hfile k)
    · rw [hsame.openFiles] at hk
      rw [hacc] at hwr
      exact (hw.room k hk hroomy hwr).congr (hfile k)
  noteSector {w act} hact hw := hw.note (by cases act <;> trivial)

/-- A change of one handle. -/
theorem Writers.modifyFile {f : File → File} (hw : Writers g S c size P Q roomy busy w)
    (hbusy : busy h → (f (w.files h)).access = .wronly)
    (hsized : h ∈ w.fs.openFiles → (f (w.files h)).access = .wronly → (f (w.files h)).Sized c)
    (hroom : h ∈ w.fs.openFiles → roomy h → (f (w.files h)).access = .wronly → (f (w.files h)).Room g S) :
    Writers g S c size P Q roomy busy ((modifyFile h f).run w).2 := by
  have hfile : ∀ k, ((Fastffs.modifyFile h f).run w).2.files k =
      if k = h then f (w.files k) else w.files k := fun _ => rfl
  refine ⟨hw.indexSectors_pos, hw.sectorSize, hw.sectorCount, hw.chipSize, hw.granule, hw.nodup,
    fun k hk => ⟨(hw.busy k hk).1, ?_⟩, fun k hk => ?_, fun k hk => ?_, hw.events⟩
  · rw [hfile]
    split
    · next hkh =>
      subst hkh
      exact hbusy hk
    · exact (hw.busy k hk).2
  · rw [hfile]
    split
    · next hkh =>
      subst hkh
      exact hsized hk
    · exact hw.sized k hk
  · rw [hfile]
    split
    · next hkh =>
      subst hkh
      exact hroom hk
    · exact hw.room k hk

/-- The invariant, for the moves of a reader. -/
def WritersRead (g S c size : Nat) (P : Fs → File → Bool → Prop) (Q : List Nat → Prop) (h : Nat)
    (w : World) : Prop :=
  Writers g S c size P Q (fun _ => True) (fun _ => False) w ∧ (w.files h).access = .rdonly

instance : ReaderInv h (WritersRead g S c size P Q h) where
  ofRead hw := ⟨ReadInv.ofRead hw.1, hw.2⟩
  ofMove {f} hf := by
    constructor
    intro w hw
    have hread : (f (w.files h)).access = .rdonly := (hf _).1.trans hw.2
    have hno : ¬ (f (w.files h)).access = .wronly := by
      rw [hread]
      exact nofun
    refine ⟨hw.1.modifyFile nofun (fun _ hwr => absurd hwr hno) fun _ _ hwr => absurd hwr hno, ?_⟩
    change (if h = h then f (w.files h) else w.files h).access = .rdonly
    rw [if_pos rfl]
    exact hread

/-- An invariant of a file system with sectors of `S` bytes, which are not too long, that allows
to cut numbers below 65536. -/
class FitInv (S : outParam Nat) (I : World → Prop) : Prop extends HandleInv I where
  size_ge : 256 ≤ S
  size_le : S ≤ 65536
  sectorSize : ∀ {w}, I w → w.fs.sectorSize = S
  narrow : ∀ {w} {values : List Nat}, (∀ v ∈ values, v < 65536) → I w →
    I { w with trace := ⟨.narrow values, w.fs, w.files⟩ :: w.trace }

theorem keeps_narrow {I : World → Prop} [FitInv S I] {values : List Nat} (hlt : ∀ v ∈ values, v < 65536) :
    Keeps I (note (.narrow values)) :=
  ⟨fun _ hw => FitInv.narrow hlt hw⟩

instance [Watch g S c P Q] : FitInv S (Writers g S c size P Q roomy busy) where
  size_ge := Watch.size_ge g c P Q
  size_le := Watch.size_le g c P Q
  sectorSize hw := hw.sectorSize
  narrow hlt hw := hw.note (Watch.narrow g S c P hlt)

instance {I : World → Prop} [FitInv S I] {F : File → Prop} : FitInv S (With I h F) where
  size_ge := FitInv.size_ge I
  size_le := FitInv.size_le I
  sectorSize hw := FitInv.sectorSize hw.1
  narrow hlt hw := ⟨FitInv.narrow hlt hw.1, hw.2⟩

instance (visited : Nat) :
    Keeps (Writers g S c size P Q roomy busy) (do note (.sample visited); modifyFs (fsinfoSampleChain visited)) :=
  ⟨fun v hv => { hv.note (show Event.Meets P Q ⟨.sample visited, v.fs, v.files⟩ from trivial) with }⟩

/-! ## Free windows -/

/-- A window with room for data, in front of a record and the footer, and of another record
unless it starts the sector. -/
def FreePlace (S dataOff recordOff : Nat) : Prop :=
  dataOff + allocMinUsableFree ≤ recordOff ∧ (recordOff + 42 ≤ S ∨ dataOff = 0 ∧ recordOff + 26 ≤ S)

section Find

variable {I : World → Prop} [ReadInv I] {sector slot : Nat} {normal : Bool}

theorem mdWalkNext_below {reader : SectorReader} {walk : MdWalk} :
    Yields I (mdWalkNext reader walk) fun a => a.1.2.2 = .record →
      a.1.1.cursor = a.1.2.1.recordStart ∧ a.1.2.1.recordStart + mdFileRecordSize = walk.cursor := by
  refine ⟨(inferInstance : Keeps I (mdWalkNext reader walk)).keeps, fun w a _ ha hrec => ?_⟩
  obtain ⟨⟨walk', r, result⟩, reader'⟩ := a
  dsimp only at hrec
  subst hrec
  obtain ⟨hpass, hstart, -, -⟩ := mdWalkNext_record (show (mdWalkNext reader walk).run w =
    (.ok ((walk', r, .record), reader'), ((mdWalkNext reader walk).run w).2) from Prod.ext ha rfl)
  exact ⟨congrArg MdWalk.cursor hpass, hstart⟩

/-- The scan has passed no record, or its last record lies below the cursor. -/
theorem freeWindowLoop_below [hfull : Keeps I (markSectorFull sector)] {fuel : Nat} {reader : SectorReader}
    {walk : MdWalk} {scan : WindowScan} (hcursor : scan.metadataStart = walk.cursor) :
    Yields I (freeWindowLoop sector slot normal fuel reader walk scan) fun scan' =>
      scan' = scan ∨ scan'.metadataStart + mdFileRecordSize ≤ walk.cursor := by
  induction fuel generalizing reader walk scan with
  | zero => exact .pure (.inl rfl)
  | succ fuel ih =>
    rw [freeWindowLoop]
    refine Yields.ite (fun _ => .pure (.inl rfl)) fun _ => mdWalkNext_below.bind fun a ha => ?_
    obtain ⟨⟨walk', r, result⟩, reader'⟩ := a
    dsimp only at ha ⊢
    cases result with
    | endErased => exact .pure (.inl rfl)
    | endInvalid => exact .throw _
    | endClaimedData => exact .pure (.inl rfl)
    | record =>
      obtain ⟨hpass, hstart⟩ := ha rfl
      have hmark : Yields I (Prog.attempt (markSectorFull sector)) fun _ => True := Yields.ofKeeps
      refine Yields.ite (fun _ => hmark.bind fun _ _ => .throw _) fun _ => Yields.ite
        (fun _ => .throw _) fun _ => ?_
      refine (ih hpass.symm).mono fun scan' hscan => .inr ?_
      rcases hscan with hsame | hbelow
      · rw [hsame]
        exact hstart.le
      · omega

end Find

variable {I : World → Prop} [FitInv S I]

/-- `fffs_find_sector_free_window` finds a window in front of a record, or a blank sector. -/
theorem findSectorFreeWindow_place {s minFree slot : Nat} {normal : Bool} :
    Yields I (findSectorFreeWindow s minFree slot normal) fun win =>
      win.dataOff + minFree ≤ win.recordOff ∧
        (win.recordOff + 42 ≤ S ∨ win.dataOff = 0 ∧ win.recordOff + 26 ≤ S) := by
  have hge : 256 ≤ S := FitInv.size_ge I
  have hle : S ≤ 65536 := FitInv.size_le I
  have hfs : Yields I getFs fun fs => fs.sectorSize = S :=
    ⟨fun _ hw => hw, fun _ _ hw ha => by cases ha; exact FitInv.sectorSize hw⟩
  have hmark : Yields I (Prog.attempt (markSectorFull s)) fun _ => True :=
    Yields.ofKeeps
  have hnote : ∀ values : List Nat, (∀ v ∈ values, v < 65536) →
      Yields I (note (.narrow values)) fun _ => True :=
    fun values hlt => @Yields.ofKeeps _ _ _ _ _ (keeps_narrow hlt)
  have hinit : ∀ reader, Yields I (mdWalkInit reader s) fun a => a.1.cursor = S - 10 := by
    intro reader
    rw [mdWalkInit]
    refine hfs.bind fun fs hsize => Yields.ite (fun _ => .throw _) fun _ => .pure ?_
    rw [MdWalk.begin, hsize]
    rfl
  rw [findSectorFreeWindow]
  refine hfs.bind fun fs hsize => ?_
  refine Yields.ite (fun _ => .throw _) fun _ => Yields.ofKeeps.bind fun view _ => ?_
  dsimp only
  rw [hsize, sectorFooterSize, mdFileRecordSize]
  refine Yields.ite (fun _ => ?_) fun _ => Yields.ite (fun _ => .throw _) fun _ =>
    Yields.ite (fun _ => .throw _) fun _ => ?_
  · refine Yields.ofKeeps.bind fun _ _ => Yields.ite (fun _ => .throw _) fun hroom => ?_
    rw [not_or, not_lt, not_lt] at hroom
    refine (hnote _ fun v hv => ?_).bind fun _ _ => .pure ?_
    · cases List.mem_singleton.mp hv
      omega
    · dsimp only
      rw [u16_of_lt (by omega)]
      omega
  · refine (hinit _).bind fun a hcursor => (freeWindowLoop_below
      (show (⟨0, S - 10, 0⟩ : WindowScan).metadataStart = a.1.cursor from hcursor.symm)).bind
      fun scan hscan => ?_
    refine Yields.ite (fun _ => hmark.bind fun _ _ => .throw _) fun hcount => ?_
    rw [not_le, allocMaxMdRecordsPerSector] at hcount
    refine Yields.ite (fun _ => Yields.ite (fun _ => hmark.bind fun _ _ => .throw _) fun _ => .throw _)
      fun hroom => ?_
    rw [not_or, not_lt, not_lt] at hroom
    have hstart : scan.metadataStart + 16 ≤ S - 10 ∨ scan.metadataStart = S - 10 ∧ scan.maxDataEnd = 0 := by
      rcases hscan with hsame | hbelow
      · rw [hsame]
        exact .inr ⟨rfl, rfl⟩
      · exact .inl (hcursor ▸ hbelow)
    refine Yields.ofKeeps.bind fun _ _ => (hnote _ fun v hv => ?_).bind fun _ _ => .pure ?_
    · simp only [List.mem_cons, List.not_mem_nil, or_false] at hv
      omega
    · dsimp only
      rw [u16_of_lt (by omega), u16_of_lt (by omega)]
      omega

instance (s minFree slot : Nat) (normal : Bool) :
    Keeps I (findSectorFreeWindow s minFree slot normal) :=
  findSectorFreeWindow_place.toKeeps

/-! ## Allocation -/

section Handle

variable {file : File} {dataOff recordOff : Nat} {needsFooter : Bool}

theorem File.Sized.setWindow (hsized : file.Sized c) : (file.setWindow dataOff recordOff needsFooter).Sized c :=
  ⟨hsized.current_lt, hsized.span_le, hsized.prefix_le, hsized.data_lt⟩

/-- A handle with an empty cache has room in every window that can be found. -/
theorem File.Room.ofPlace (hcache : file.cache = []) (hstart : file.currentWriteOffset = file.dataOffset)
    (hplace : FreePlace S file.dataOffset file.currentMetadataOffset) : file.Room g S := by
  obtain ⟨hroom, hedge⟩ := hplace
  have hcap := currentExtentCapacity_eq file
  refine ⟨by rw [hcache]; exact Nat.zero_le _, .inr ⟨hedge.imp id fun hzero => ⟨?_, hzero.2⟩, ?_⟩⟩
  · rw [hstart, hzero.1]
    exact Nat.dvd_zero g
  · rw [hcache, hstart, List.length_nil]
    rw [allocMinUsableFree] at hroom
    omega

end Handle

/-- A property of a handle with an empty cache that its window does not matter for. -/
structure Windowless (F : File → Prop) : Prop where
  cache : ∀ {f}, F f → f.cache = []
  setWindow : ∀ {f dataOff recordOff needsFooter}, F f → F (f.setWindow dataOff recordOff needsFooter)

/-- The handle stands at the start of a window. -/
def File.AtWindow (S : Nat) (file : File) : Prop :=
  file.currentWriteOffset = file.dataOffset ∧ FreePlace S file.dataOffset file.currentMetadataOffset

theorem Windowless.windows [Watch g S c P Q] {F : File → Prop} (hF : Windowless F) :
    AllocWindows (With (Writers g S c size P Q roomy busy) h F) h (FreePlace S) fun f => F f ∧ f.AtWindow S where
  found _ _ := findSectorFreeWindow_place
  blank := by
    have hge : 256 ≤ S := Watch.size_ge g c P Q
    have hle : S ≤ 65536 := Watch.size_le g c P Q
    refine ⟨fun _ hw => hw, fun w fs hw hfs => ?_⟩
    cases hfs
    rw [hw.1.sectorSize, sectorFooterSize, mdFileRecordSize, u16_of_lt (by omega)]
    refine ⟨keeps_narrow fun v hv => ?_, ?_⟩
    · cases List.mem_singleton.mp hv
      omega
    · rw [FreePlace, allocMinUsableFree]
      omega
  taken dataOff recordOff needsFooter hplace := by
    have hfile : ∀ w, ((modifyFile h fun f => f.setWindow dataOff recordOff needsFooter).run w).2.files h =
        (w.files h).setWindow dataOff recordOff needsFooter := fun _ => if_pos rfl
    have hset : ∀ w, With (Writers g S c size P Q roomy busy) h F w →
        F ((w.files h).setWindow dataOff recordOff needsFooter).unreserved := fun w hw => hF.setWindow hw.2
    refine ⟨fun w hw => ⟨?_, ?_⟩, fun w _ hw _ => ?_⟩
    · have hcache : ((w.files h).setWindow dataOff recordOff needsFooter).unreserved.cache = [] :=
        hF.cache (hset w hw)
      exact hw.1.modifyFile (fun hk => (hw.1.busy h hk).2) (fun hk hwr => (hw.1.sized h hk hwr).setWindow)
        fun _ _ _ => File.Room.ofPlace hcache rfl hplace
    · rw [hfile]
      exact hset w hw
    · rw [hfile]
      exact ⟨hset w hw, rfl, hplace⟩

/-! ## Flushing -/

theorem flushBytes_nil (g : Nat) (final : Bool) : flushBytes g final [] = [] := by
  cases final with
  | false => rfl
  | true =>
    rw [flushBytes_true, List.length_nil, Nat.zero_mod, Nat.sub_zero, Nat.mod_self]
    rfl

/-- A flush of a writer with room: nothing to program, or a program of the bytes that fails or
moves the handle on. -/
theorem flushWriteCache_run [Watch g S c P Q] {final : Bool} {J : Except Status Unit → World → Prop}
    (hw : Writers g S c size P Q roomy busy w) (hbusy : busy h) (hroomy : roomy h)
    (hnil : flushBytes g final (w.files h).cache = [] → J (.ok ()) w)
    (hfail : ∀ e v, Writers g S c size P Q roomy busy v → (v.files h).unreserved = (w.files h).unreserved →
      J (.error e) v)
    (hdone : ∀ v, Writers g S c size P Q roomy busy v → (v.files h).unreserved = (w.files h).unreserved →
      J (.ok ()) ((modifyFile h fun f => f.flushed (flushBytes g final (w.files h).cache)).run v).2) :
    J ((flushWriteCache h final).run w).1 ((flushWriteCache h final).run w).2 := by
  obtain ⟨hopen, hwrite⟩ := hw.busy h hbusy
  rw [flushWriteCache, bind_of_ok (run_get w)]
  dsimp only
  rw [hw.granule]
  split
  · next hempty => exact hnil (List.isEmpty_iff.mp hempty)
  next hempty =>
  have hne : (w.files h).cache ≠ [] := by
    intro hcache
    rw [hcache, flushBytes_nil] at hempty
    exact hempty rfl
  have hnote : Writers g S c size P Q roomy busy { w with trace := ⟨.flush h final, w.fs, w.files⟩ :: w.trace } :=
    hw.note (Watch.flush Q hw.sectorSize (hw.sized h hopen hwrite).current_lt (hw.room h hopen hroomy hwrite) hne)
  rw [bind_of_ok (run_note (.flush h final) w)]
  have hprogram : ∀ off bs, Keeps (With (Writers g S c size P Q roomy busy) h fun f => f = (w.files h).unreserved)
      (programAligned off bs) := fun _ _ => inferInstance
  have hstay := (hprogram ((w.files h).current * w.fs.sectorSize + (w.files h).currentWriteOffset)
    (flushBytes g final (w.files h).cache)).keeps _ ⟨hnote, rfl⟩
  refine run_bind_cases (J := J) (fun e v hv => ?_) fun _ v hv => ?_
  · rw [hv] at hstay
    exact hfail e v hstay.1 hstay.2
  · rw [hv] at hstay
    exact hdone v hstay.1 hstay.2

/-- A flush between two writes. -/
theorem flushWriteCache_keeps [Watch g S c P Q] (hbusy : busy h) (hroomy : roomy h) :
    Keeps (Writers g S c size P Q roomy busy) (flushWriteCache h false) := by
  constructor
  intro w hw
  refine flushWriteCache_run (J := fun _ v => Writers g S c size P Q roomy busy v) hw hbusy hroomy (fun _ => hw)
    (fun _ _ hv _ => hv) fun v hv hsame => ?_
  have hcache : (v.files h).cache = (w.files h).cache :=
    (congrArg File.cache hsame : (v.files h).unreserved.cache = _)
  rw [← hcache]
  refine hv.modifyFile (fun hk => (hv.busy h hk).2) (fun hk hwr => ?_) fun hk hr hwr => ?_
  · have hsized := hv.sized h hk hwr
    exact ⟨hsized.current_lt, hsized.span_le, hsized.prefix_le, hsized.data_lt⟩
  · exact (hv.room h hk hr hwr).flushed (Watch.size_le g c P Q)

variable [Opts]

/-- An allocation leaves the handle at the start of a window. -/
theorem Windowless.alloc [Watch g S c P Q] {F : File → Prop} (hF : Windowless F) :
    Gives (With (Writers g S c size P Q roomy busy) h F) (allocNextSector h) fun _ w =>
      F (w.files h).unreserved ∧ (w.files h).unreserved.AtWindow S :=
  allocNextSector_gives hF.windows

/-! ## The next extent -/

omit [Opts] in
theorem pendingSpan_lt {file : File} (hsized : file.Sized c) (hc : c ≤ uint16Max) : pendingSpan file < 65536 := by
  have hlt := hsized.current_lt
  have hle := hsized.span_le
  rw [uint16Max] at hc
  rw [pendingSpan, u32]
  omega

/-- A call writes to the handle. -/
abbrev Writing (g S c size : Nat) (P : Fs → File → Bool → Prop) (Q : List Nat → Prop) (h : Nat) : World → Prop :=
  Writers g S c size P Q (fun _ => True) (· = h)

/-- Between two extents: the cache is empty, and the handle is still at the extent of `old`. -/
structure File.Leaves (old file : File) : Prop where
  cache : file.cache = []
  current : file.current = old.current
  head : file.head = old.head
  payload : file.rootPayloadOffset = old.rootPayloadOffset

omit [Opts] in
theorem File.Leaves.windowless (old : File) : Windowless old.Leaves :=
  ⟨fun hf => hf.cache, fun hf => ⟨hf.cache, hf.current, hf.head, hf.payload⟩⟩

/-- Between two extents, at the start of the next window. -/
def Entering (g S c size : Nat) (P : Fs → File → Bool → Prop) (Q : List Nat → Prop) (h : Nat) (old : File) :
    World → Prop :=
  With (Writing g S c size P Q h) h fun f => old.Leaves f ∧ f.AtWindow S

instance [Watch g S c P Q] {old : File} : FitInv S (Entering g S c size P Q h old) :=
  inferInstanceAs (FitInv S (With _ h _))

section Watched

variable [Watch g S c P Q] {old : File} {next : Nat}

omit [Opts] [Watch g S c P Q] in
theorem Writers.sizedBusy (hw : Writers g S c size P Q roomy busy w) (hbusy : busy h) : (w.files h).Sized c :=
  hw.sized h (hw.busy h hbusy).1 (hw.busy h hbusy).2

omit [Opts] [Watch g S c P Q] in
/-- A change of a handle that its sizes and its room allow. -/
theorem writers_modifyFile {F : File → Prop} {f : File → File} (hacc : ∀ x, (f x).access = x.access)
    (hsized : ∀ x, x.Sized c → (f x).Sized c) (hroom : ∀ x, x.Room g S → (f x).Room g S)
    (hF : ∀ x : File, F x.unreserved → F (f x).unreserved) :
    Keeps (With (Writers g S c size P Q roomy busy) h F) (modifyFile h f) := by
  constructor
  intro w hw
  have hfile : ((modifyFile h f).run w).2.files h = f (w.files h) := if_pos rfl
  refine ⟨hw.1.modifyFile (fun hk => (hacc _).trans (hw.1.busy h hk).2) (fun hk hwr => ?_) fun hk
    hr hwr => ?_, ?_⟩
  · exact hsized _ (hw.1.sized h hk ((hacc _).symm.trans hwr))
  · exact hroom _ (hw.1.room h hk hr ((hacc _).symm.trans hwr))
  · rw [hfile]
    exact hF _ hw.2

theorem recordExtent_writers {F : File → Prop}
    (hF : ∀ f, F f → f.head = old.head ∧ f.rootPayloadOffset = old.rootPayloadOffset) (hold : old.Sized c) :
    Keeps (With (Writers g S c size P Q roomy busy) h F) (recordExtent h old next) := by
  refine recordExtent_keeps fun w hw => ?_
  rw [noteDataLen, Prog.when]
  split
  · next hroot =>
    refine FitInv.narrow (fun v hv => ?_) hw
    cases List.mem_singleton.mp hv
    have hlt := hold.data_lt
    obtain ⟨hhead, hpayload⟩ : (w.files h).head = old.head ∧
        (w.files h).rootPayloadOffset = old.rootPayloadOffset := hF (w.files h).unreserved hw.2
    rw [File.prefixLen, if_pos (hroot.trans hhead), ← hpayload] at hlt
    exact hlt
  · exact hw

theorem flushPendingSpanHead_writers {F : File → Prop} (hF : ∀ f, F f → F { f with spanHead := 0 })
    (hbusy : busy h) {final : Bool} :
    Keeps (With (Writers g S c size P Q roomy busy) h F) (flushPendingSpanHead h next final) := by
  refine flushPendingSpanHead_keeps (fun w hw => ?_) (writers_modifyFile (fun _ => rfl) (fun _ hsized => ?_)
    (fun _ hroom => ?_) fun x hx => hF _ hx)
  · refine FitInv.narrow (fun v hv => ?_) hw
    cases List.mem_singleton.mp hv
    exact pendingSpan_lt (hw.1.sizedBusy hbusy) (Watch.count_le g S P Q)
  · exact ⟨hsized.current_lt, Nat.zero_le _, hsized.prefix_le, hsized.data_lt⟩
  · exact ⟨hroom.cache_le, hroom.window.imp id fun hwin => ⟨hwin.edge, hwin.room⟩⟩

omit [Watch g S c P Q] in
/-- A delete of a chain. -/
theorem invalidateCommitted_writers {F : File → Prop} {slot head next : Nat} :
    Keeps (With (Writers g S c size P Q roomy busy) h F) (invalidateCommitted slot head next) := by
  refine invalidateCommitted_keeps fun v => ⟨fun w hw => ⟨?_, hw.2⟩⟩
  exact (inferInstance : Keeps (Writers g S c size P Q roomy busy)
    (do note (.sample v); modifyFs (fsinfoSampleChain v))).keeps w hw.1

omit [Opts] [Watch g S c P Q] in
/-- The handle enters the sector that it has been given. -/
theorem startExtent_writers {extend : Bool} (hw : Entering g S c size P Q h old w) (hnext : next < c)
    (hextend : extend = true → next = old.current + 1) :
    Writing g S c size P Q h
      ((modifyFile h fun f => f.startExtent old next extend).run w).2 := by
  have hsized := hw.1.sizedBusy rfl
  have hcurrent : (w.files h).current = old.current := hw.2.1.current
  refine hw.1.modifyFile (fun hk => (hw.1.busy h hk).2)
    (fun _ _ => ⟨hnext, ?_, hsized.prefix_le, ?_⟩) fun _ _ _ => ?_
  · change (if extend then (w.files h).spanHead else next) ≤ next
    have hspan := hsized.span_le
    split
    · next hext =>
      have hsucc := hextend hext
      omega
    · exact Nat.le_refl next
  · have hpayload := hsized.prefix_le
    change (if next = (w.files h).head then (w.files h).rootPayloadOffset else 0) + 0 < 65536
    rw [maxName] at hpayload
    split
    · omega
    · omega
  · exact File.Room.ofPlace rfl hw.2.2.1 hw.2.2.2

omit [Watch g S c P Q] in
instance {n : Nat} : LogInv n S c fun _ => True := ⟨fun _ _ => trivial, fun _ _ => trivial⟩

omit [Opts] in
/-- The last flush of an extent that is over. -/
theorem flushWriteCache_over (hw : Writing g S c size P Q h w)
    (hover : currentExtentCapacity (w.files h) ≤ (w.files h).currentDataLen) :
    Writing g S c size P Q h ((flushWriteCache h true).run w).2 ∧
      (((flushWriteCache h true).run w).1 = .ok () →
        (((flushWriteCache h true).run w).2.files h).cache = []) := by
  refine flushWriteCache_run (J := fun r v => Writing g S c size P Q h v ∧
    (r = .ok () → (v.files h).cache = [])) hw rfl trivial (fun hnil => ⟨hw, fun _ => ?_⟩)
    (fun e v hv _ => ⟨hv, nofun⟩) fun v hv hsame => ?_
  · rw [flushBytes_true] at hnil
    exact (List.append_eq_nil_iff.mp hnil).1
  · have hcache : (v.files h).cache = (w.files h).cache :=
      (congrArg File.cache hsame : (v.files h).unreserved.cache = _)
    have hover' : currentExtentCapacity (v.files h) ≤ (v.files h).currentDataLen := by
      have hcap : currentExtentCapacity (v.files h).unreserved ≤ (v.files h).unreserved.currentDataLen := by
        rw [hsame]
        exact hover
      exact hcap
    have hnil := flushed_nil (g := g) (v.files h)
    rw [← hcache]
    have hfile : ((modifyFile h fun f => f.flushed (flushBytes g true (v.files h).cache)).run v).2.files h =
        (v.files h).flushed (flushBytes g true (v.files h).cache) := if_pos rfl
    refine ⟨hv.modifyFile (fun hk => (hv.busy h hk).2) (fun hk hwr => ?_) fun _ _ _ => ?_, fun _ => ?_⟩
    · have hsized := hv.sized h hk hwr
      exact ⟨hsized.current_lt, hsized.span_le, hsized.prefix_le, hsized.data_lt⟩
    · exact ⟨by rw [hnil]; exact Nat.zero_le _, .inl ⟨hnil, hover'⟩⟩
    · rw [hfile]
      exact hnil

/-- `start_next_extent`. -/
theorem startNextExtent_writers {n : Nat} {L : Opened} (hp : Placed n S c L (fun _ => True) w)
    (hopen : h ∈ L.handles) (hwrite : L.access h = .wronly)
    (hw : Writing g S c size P Q h w)
    (hover : currentExtentCapacity (w.files h) ≤ (w.files h).currentDataLen) :
    Writing g S c size P Q h ((startNextExtent h).run w).2 := by
  have hflush := flushWriteCache_over hw hover
  have harea : Keeps (Placed n S c L fun _ => True) (flushWriteCache h true) := flushWriteCache_area hopen hwrite
  have hpflush := harea.keeps w hp
  rw [startNextExtent]
  rcases hrun : (flushWriteCache h true).run w with ⟨r, w1⟩
  rw [hrun] at hflush hpflush
  cases r with
  | error e =>
    rw [run_bind, hrun]
    exact hflush.1
  | ok u =>
    rw [bind_of_ok hrun, bind_of_ok (run_getFile h w1)]
    have hold : (w1.files h).Sized c := hflush.1.sized h (hflush.1.busy h rfl).1 (hflush.1.busy h rfl).2
    have hleaves : With (Writing g S c size P Q h) h (w1.files h).Leaves w1 :=
      ⟨hflush.1, hflush.2 rfl, rfl, rfl, rfl⟩
    have halloc : Gives (With (Writing g S c size P Q h) h (w1.files h).Leaves) (allocNextSector h) fun _ w =>
        (w1.files h).Leaves (w.files h).unreserved ∧ (w.files h).unreserved.AtWindow S :=
      (File.Leaves.windowless (w1.files h)).alloc
    have hleaves2 := halloc.keeps w1 hleaves
    rcases hrun2 : (allocNextSector h).run w1 with ⟨r, w2⟩
    rw [hrun2] at hleaves2
    cases r with
    | error e =>
      rw [run_bind, hrun2]
      exact hleaves2.1
    | ok next =>
      have hnext : InData n c next := allocNextSector_yields.value w1 next hpflush (by rw [hrun2])
      have hpost := halloc.post w1 next hleaves (by rw [hrun2])
      rw [hrun2] at hpost
      have hent : Entering g S c size P Q h (w1.files h) w2 := ⟨hleaves2.1, hpost⟩
      rw [bind_of_ok hrun2, bind_of_ok (run_getFile h w2)]
      have hnote : Keeps (Entering g S c size P Q h (w1.files h))
          (note (.narrow [pendingSpan (w2.files h)])) := keeps_narrow fun v hv => by
        cases List.mem_singleton.mp hv
        exact pendingSpan_lt (hent.1.sizedBusy rfl) (Watch.count_le g S P Q)
      have hrecord : Keeps (Entering g S c size P Q h (w1.files h)) (recordExtent h (w1.files h) next) :=
        recordExtent_writers (F := fun f => (w1.files h).Leaves f ∧ f.AtWindow S)
          (fun f hf => ⟨hf.1.head, hf.1.payload⟩) hold
      have hspan : Keeps (Entering g S c size P Q h (w1.files h)) (flushPendingSpanHead h next false) :=
        flushPendingSpanHead_writers (F := fun f => (w1.files h).Leaves f ∧ f.AtWindow S)
          (fun f hf => ⟨⟨hf.1.cache, hf.1.current, hf.1.head, hf.1.payload⟩, hf.2⟩) (by rfl)
      refine Keeps.bind_to (I := Entering g S c size P Q h (w1.files h)) inferInstance (fun _ w3 hw3 => ?_)
        (fun _ hv => hv.1) hent
      dsimp only
      refine Keeps.bind_to hrecord (fun _ w4 hw4 => ?_) (fun _ hv => hv.1) hw3
      refine Keeps.bind_to inferInstance (fun _ w5 hw5 => ?_) (fun _ hv => hv.1) hw4
      refine startExtent_writers hw5 hnext.2 fun hextend => ?_
      rw [Bool.and_eq_true, decide_eq_true_eq] at hextend
      exact hextend.1

/-! ## Writing -/

section Write

variable {n : Nat} {L : Opened}

omit [Opts] in
/-- The bytes that one round of `fffs_write` takes fit. -/
theorem takeRound_writers (src : List Byte) (hw : Writing g S c size P Q h w) :
    let bs := src.take (min (currentExtentCapacity (w.files h) - (w.files h).currentDataLen)
      (fileCacheSize - (w.files h).cache.length))
    Writing g S c size P Q h
      ((do note (.narrow [(w.files h).currentDataLen + bs.length]); modifyFile h fun f => f.take bs : M Unit).run
        w).2 := by
  intro bs
  have hS : S ≤ 65536 := Watch.size_le g c P Q
  obtain ⟨hopen, hwrite⟩ := hw.busy h rfl
  have hsized := hw.sized h hopen hwrite
  have hroom := hw.room h hopen trivial hwrite
  have hfit : (w.files h).fits bs := List.length_take_le _ _
  have hnote := hw.note
    (show Event.Meets P Q ⟨.narrow [(w.files h).currentDataLen + bs.length], w.fs, w.files⟩ from
    Watch.narrow g S c P fun v hv => by
      cases List.mem_singleton.mp hv
      have hlt := hroom.data_lt hsized hS hfit
      omega)
  rw [bind_of_ok (run_note _ w)]
  exact hnote.modifyFile (fun hk => (hw.busy h hk).2) (fun _ _ => hsized.take hroom hS hfit)
    fun _ _ _ => hroom.take hsized hS hfit

/-- The loop of `fffs_write`. -/
theorem writeLoop_writers {fuel : Nat} {src : List Byte} (hopen : h ∈ L.handles) (hwrite : L.access h = .wronly) :
    Keeps (fun v => Placed n S c L (fun _ => True) v ∧ Writing g S c size P Q h v) (writeLoop h fuel src) := by
  have hflush : Keeps (fun v => Placed n S c L (fun _ => True) v ∧ Writing g S c size P Q h v)
      (flushWriteCache h false) :=
    (flushWriteCache_area hopen hwrite).and (flushWriteCache_keeps rfl trivial)
  induction fuel generalizing src with
  | zero => unfold writeLoop; infer_instance
  | succ fuel ih =>
    have hround : Keeps (fun v => Placed n S c L (fun _ => True) v ∧ Writing g S c size P Q h v) (do
        let file ← getFile h
        let space := min (currentExtentCapacity file - file.currentDataLen) (fileCacheSize - file.cache.length)
        let bs := src.take space
        note (.narrow [file.currentDataLen + bs.length])
        modifyFile h fun f => f.take bs
        let file ← getFile h
        Prog.when (file.cache.length = fileCacheSize) (flushWriteCache h false)
        writeLoop h fuel (src.drop bs.length)) := by
      constructor
      intro v hv
      have htake := takeRound_writers src hv.2
      have harea : ∀ values bs, Keeps (Placed n S c L fun _ => True)
          (do note (.narrow values); modifyFile h fun f => f.take bs) := fun _ _ =>
        Keeps.bind (k := fun _ => placed_modifyFile (fun _ => ⟨rfl, rfl, rfl, rfl⟩) fun _ hres => hres)
      have hrest : ∀ k, Keeps (fun v => Placed n S c L (fun _ => True) v ∧ Writing g S c size P Q h v) (do
          let file ← getFile h
          Prog.when (file.cache.length = fileCacheSize) (flushWriteCache h false)
          writeLoop h fuel (src.drop k)) := fun _ => inferInstance
      rw [bind_of_ok (run_getFile h v)]
      dsimp only
      rw [bind_of_ok (run_note _ v), bind_of_ok (run_modifyFile h _ _)]
      exact (hrest _).keeps _ ⟨(harea _ _).keeps v hv.1, htake⟩
    unfold writeLoop
    split
    · infer_instance
    · constructor
      intro v hv
      rw [bind_of_ok (run_getFile h v)]
      refine Keeps.after (I := fun v => Placed n S c L (fun _ => True) v ∧ Writing g S c size P Q h v) ?_
        fun _ => hround
      rw [Prog.when]
      split
      · next hover =>
        have harea : Keeps (Placed n S c L fun _ => True) (startNextExtent h) := startNextExtent_area hopen hwrite
        exact ⟨harea.keeps v hv.1, startNextExtent_writers hv.1 hopen hwrite hv.2 hover⟩
      · exact hv

omit [Opts] [Watch g S c P Q] in
theorem Writers.enter (hw : Writers g S c size P Q roomy busy w) (hopen : h ∈ w.fs.openFiles)
    (hwrite : (w.files h).access = .wronly) : Writers g S c size P Q roomy (· = h) w :=
  { hw with busy := fun _ hk => hk ▸ ⟨hopen, hwrite⟩ }

omit [Opts] [Watch g S c P Q] in
theorem Writers.leave (hw : Writers g S c size P Q roomy busy w) :
    Writers g S c size P Q roomy (fun _ => False) w :=
  { hw with busy := nofun }

/-- `fffs_write`. -/
theorem write_writers {src : List Byte} (hp : Placed n S c L (fun _ => True) w) (hopen : h ∈ L.handles)
    (hw : Writers g S c size P Q (fun _ => True) (fun _ => False) w) :
    Writers g S c size P Q (fun _ => True) (fun _ => False) ((write h src).run w).2 := by
  rw [write, bind_of_ok (run_getFile h w)]
  split
  · exact hw
  · next hok =>
    rw [not_or, not_not] at hok
    have hmem : h ∈ w.fs.openFiles := hp.opened ▸ hopen
    have hwrite : L.access h = .wronly := (hp.access h (List.mem_append_right _ hopen)).symm.trans hok.2
    exact ((writeLoop_writers hopen hwrite).keeps w ⟨hp, hw.enter hmem hok.2⟩).2.leave

/-! ## Closing -/

/-- The commit of `fffs_close`.  Afterwards the other writers still have room. -/
theorem closeWriter_writers (hopen : h ∈ w.fs.openFiles) (hwrite : (w.files h).access = .wronly)
    (hw : Writers g S c size P Q (fun _ => True) (fun _ => False) w) :
    Writers g S c size P Q (· ≠ h) (fun _ => False) ((closeWriter h).run w).2 := by
  have hother : ∀ {v}, Writing g S c size P Q h v → Writers g S c size P Q (· ≠ h) (· = h) v :=
    fun hv => { hv with room := fun k hk _ => hv.room k hk trivial }
  have hflush : Writers g S c size P Q (· ≠ h) (· = h) ((flushWriteCache h true).run w).2 := by
    have henter : Writing g S c size P Q h w := hw.enter hopen hwrite
    refine flushWriteCache_run (J := fun _ v => Writers g S c size P Q (· ≠ h) (· = h) v) henter rfl trivial
      (fun _ => hother henter) (fun _ _ hv _ => hother hv) fun v hv _ => ?_
    refine (hother hv).modifyFile (fun hk => (hv.busy h hk).2) (fun hk hwr => ?_) fun _ hne _ => absurd rfl hne
    have hsized := hv.sized h hk hwr
    exact ⟨hsized.current_lt, hsized.span_le, hsized.prefix_le, hsized.data_lt⟩
  rw [closeWriter]
  rcases hrun : (flushWriteCache h true).run w with ⟨r, w1⟩
  rw [hrun] at hflush
  cases r with
  | error e =>
    rw [run_bind, hrun]
    exact hflush.leave
  | ok u =>
    rw [bind_of_ok hrun, bind_of_ok (run_getFile h w1)]
    let F : File → Prop := fun f =>
      f.head = (w1.files h).head ∧ f.rootPayloadOffset = (w1.files h).rootPayloadOffset
    have hrecord : Keeps (With (Writers g S c size P Q (· ≠ h) (· = h)) h F) (recordExtent h (w1.files h) 0) :=
      recordExtent_writers (fun _ hf => hf) (hflush.sizedBusy rfl)
    have hspan : Keeps (With (Writers g S c size P Q (· ≠ h) (· = h)) h F) (flushPendingSpanHead h 0 true) :=
      flushPendingSpanHead_writers (fun _ hf => hf) (by rfl)
    have hold : ∀ head next : File → Nat, Keeps (With (Writers g S c size P Q (· ≠ h) (· = h)) h F)
        (modifyFile h fun f => { f with oldHead := head f, oldNext := next f }) := fun _ _ =>
      writers_modifyFile (fun _ => rfl)
        (fun _ hsized => ⟨hsized.current_lt, hsized.span_le, hsized.prefix_le, hsized.data_lt⟩)
        (fun _ hroom => ⟨hroom.cache_le, hroom.window.imp id fun hwin => ⟨hwin.edge, hwin.room⟩⟩) fun _ hf => hf
    have hrefresh : Keeps (With (Writers g S c size P Q (· ≠ h) (· = h)) h F) (refreshOldHead h) :=
      refreshOldHead_keeps (fun p => hold (fun _ => p.1) fun _ => p.2) (hold (fun _ => 0) File.oldNext)
    have hchain : ∀ slot head next, Keeps (With (Writers g S c size P Q (· ≠ h) (· = h)) h F)
        (invalidateCommitted slot head next) := fun _ _ _ => invalidateCommitted_writers
    refine ((?_ : Keeps (With (Writers g S c size P Q (· ≠ h) (· = h)) h F) _).keeps w1
      ⟨hflush, rfl, rfl⟩).1.leave
    refine Keeps.bind (k := fun _ => ?_)
    dsimp only
    refine Keeps.bind (k := fun _ => Keeps.bind (k := fun _ => ?_))
    infer_instance

omit [Watch g S c P Q] in
theorem allocMapMarkRangeUnknown_returns (first count : Nat) (w : World) :
    ∃ w', (allocMapMarkRangeUnknown first count).run w = (.ok (), w') := by
  induction count generalizing first w with
  | zero => exact ⟨w, rfl⟩
  | succ count ih =>
    obtain ⟨w', hrest⟩ := ih (first + 1) { w with fs := allocMapMark (u16 first) false w.fs }
    rw [allocMapMarkRangeUnknown, allocMapMarkUnknown, bind_of_ok (run_modifyFs _ w)]
    exact ⟨w', hrest⟩

omit [Watch g S c P Q] in
theorem allocReleaseReservation_returns (h : Nat) (w : World) :
    ∃ w', (allocReleaseReservation h).run w = (.ok (), w') := by
  rw [allocReleaseReservation, bind_of_ok (run_getFile h w)]
  split
  · exact ⟨w, rfl⟩
  · obtain ⟨w', hmark⟩ := allocMapMarkRangeUnknown_returns (w.files h).reserveFirst (w.files h).reserveCount w
    rw [bind_of_ok hmark]
    exact ⟨_, rfl⟩

omit [Watch g S c P Q] in
/-- The part of `fffs_close` for a writer always returns a status. -/
theorem closeCommit_returns (h : Nat) (w : World) : ∃ status w', (closeCommit h).run w = (.ok status, w') := by
  obtain ⟨w', hrelease⟩ := allocReleaseReservation_returns h ((closeWriter h).run w).2
  rw [closeCommit, bind_of_ok (run_attempt (closeWriter h) w), bind_of_ok hrelease]
  exact ⟨_, _, rfl⟩

/-- `fffs_close`. -/
theorem close_writers (hopen : h ∈ w.fs.openFiles)
    (hw : Writers g S c size P Q (fun _ => True) (fun _ => False) w) :
    Writers g S c size P Q (fun _ => True) (fun _ => False) ((close h).run w).2 := by
  rw [close, bind_of_ok (run_getFile h w)]
  split
  · exact hw
  obtain ⟨status, v, hrun, hother⟩ : ∃ status v,
      (if (w.files h).access = .wronly then closeCommit h else pure (.ok ()) : M (Except Status Unit)).run w =
        (.ok status, v) ∧ Writers g S c size P Q (· ≠ h) (fun _ => False) v := by
    split
    · next hwrite =>
      obtain ⟨status, v, hrun⟩ := closeCommit_returns h w
      have hcommit : Writers g S c size P Q (· ≠ h) (fun _ => False) ((closeCommit h).run w).2 := by
        rw [closeCommit]
        exact Keeps.after (closeWriter_writers hopen hwrite hw) fun _ => inferInstance
      rw [hrun] at hcommit
      exact ⟨status, v, hrun, hcommit⟩
    · exact ⟨_, _, rfl, { hw with room := fun k hk _ => hw.room k hk trivial }⟩
  rw [bind_of_ok hrun]
  have hmem : ∀ k, k ∈ v.fs.openFiles.erase h → k ∈ v.fs.openFiles ∧ k ≠ h :=
    fun k hk => (hother.nodup.mem_erase_iff.mp hk).symm
  have herase : Writers g S c size P Q (fun _ => True) (fun _ => False) ((unregisterOpenFile h).run v).2 :=
    { hother with
      nodup := hother.nodup.erase h
      busy := fun _ hno => by cases hno
      sized := fun k hk => hother.sized k (hmem k hk).1
      room := fun k hk _ => hother.room k (hmem k hk).1 (hmem k hk).2 }
  have hclosed := herase.modifyFile (h := h) (f := fun f => { f with closed := true }) (fun hno => by cases hno)
    (fun hk => absurd rfl (hmem h hk).2) fun hk => absurd rfl (hmem h hk).2
  rw [unregisterOpenFile, bind_of_ok (run_modifyFs _ v), bind_of_ok (run_modifyFile h _ _)]
  exact (inferInstance : Keeps (Writers g S c size P Q (fun _ => True) (fun _ => False))
    (Prog.ofExcept status)).keeps _ hclosed

/-! ## Opening -/

omit [Watch g S c P Q] in
theorem indexResolve_name {name : List Byte} {useCache : Bool} {r : Resolved}
    (hrun : (indexResolve name useCache).run w = (.ok r, w')) : (cstr name).length ≤ maxName := by
  rw [indexResolve] at hrun
  dsimp only at hrun
  split at hrun
  · cases hrun
  · split at hrun
    · cases hrun
    · next hle => exact Nat.le_of_not_lt hle

/-- A new handle: nothing has been written to it. -/
def File.New (file : File) : Prop := file.cache = [] ∧ file.currentDataLen = 0

omit [Opts] [Watch g S c P Q] in
/-- A new handle at the start of its root has room. -/
theorem startRoot_fits {file : File} {name : List Byte} {sector : Nat} (hnew : file.New)
    (hplace : file.AtWindow S) (hsector : sector < c) (hname : (cstr name).length ≤ maxName) :
    (file.startRoot name sector).Sized c ∧ (file.startRoot name sector).Room g S := by
  rw [maxName] at hname
  obtain ⟨hstart, hroom, hedge⟩ := hplace
  rw [allocMinUsableFree] at hroom
  have hpayload : (file.startRoot name sector).rootPayloadOffset = (cstr name).length + 2 := by
    change u16 (1 + (cstr name).length + 1) = _
    rw [u16_of_lt (by omega)]
    omega
  have hlead : (file.startRoot name sector).prefixLen = (cstr name).length + 2 := (if_pos rfl).trans hpayload
  have hdata : (file.startRoot name sector).currentDataLen = 0 := hnew.2
  have hcache : (file.startRoot name sector).cache.length = (cstr name).length + 2 := by
    change (rootPrefix name).length = _
    rw [rootPrefix, List.length_append, List.length_append, List.length_singleton, List.length_singleton]
    omega
  have hcap := currentExtentCapacity_eq (file.startRoot name sector)
  change _ = file.currentMetadataOffset - file.dataOffset - _ at hcap
  refine ⟨⟨hsector, Nat.le_refl _, by rw [hpayload, maxName]; omega, by rw [hlead, hdata]; omega⟩,
    by rw [hcache, fileCacheSize]; omega, .inr ⟨hedge.imp id fun hzero => ⟨?_, hzero.2⟩, ?_⟩⟩
  · change g ∣ file.currentWriteOffset
    rw [hstart, hzero.1]
    exact Nat.dvd_zero g
  · rw [hcache, hcap, hlead, hdata]
    change file.currentWriteOffset + _ + _ ≤ file.currentMetadataOffset
    omega

omit [Opts] [Watch g S c P Q] in
/-- A handle that is registered is sized and has room, if it is a writer. -/
theorem Writers.register (hw : Writers g S c size P Q (fun _ => True) (fun _ => False) w)
    (hh : h ∉ w.fs.openFiles)
    (hfits : (w.files h).access = .wronly → (w.files h).Sized c ∧ (w.files h).Room g S) :
    Writers g S c size P Q (fun _ => True) (fun _ => False) ((registerOpenFile h).run w).2 := by
  refine { hw with nodup := List.nodup_cons.mpr ⟨hh, hw.nodup⟩, busy := nofun, sized := ?_, room := ?_ }
  · intro k hk hwr
    rcases List.mem_cons.mp hk with hkh | hk
    · subst hkh
      exact (hfits hwr).1
    · exact hw.sized k hk hwr
  · intro k hk _ hwr
    rcases List.mem_cons.mp hk with hkh | hk
    · subst hkh
      exact (hfits hwr).2
    · exact hw.room k hk trivial hwr

/-- `fffs_open` for writing, once the handle has its slot. -/
theorem openWrite_writers {name : List Byte} {resolved : Resolved} {handles : List Nat} {access : Nat → Access}
    (hname : (cstr name).length ≤ maxName) (hp : Placed n S c ⟨handles, [h], access⟩ (fun _ => True) w)
    (hh : h ∉ handles)
    (hw : With (Writers g S c size P Q (fun _ => True) fun _ => False) h File.New w) :
    Writers g S c size P Q (fun _ => True) (fun _ => False) ((openWrite h name resolved).run w).2 := by
  have hnew : Windowless File.New := ⟨fun hf => hf.1, fun hf => hf⟩
  have hset : (fun f : File => f.setOld resolved.root) = fun f => { f with
      oldHead := (f.setOld resolved.root).oldHead, oldNext := (f.setOld resolved.root).oldNext } := by
    funext f
    rcases resolved.root with _ | ⟨head, root⟩ <;> rfl
  have hold : Keeps (With (Writers g S c size P Q (fun _ => True) fun _ => False) h File.New)
      (modifyFile h fun f => f.setOld resolved.root) := by
    rw [hset]
    exact writers_modifyFile (fun _ => rfl)
      (fun _ hsized => ⟨hsized.current_lt, hsized.span_le, hsized.prefix_le, hsized.data_lt⟩)
      (fun _ hroom => ⟨hroom.cache_le, hroom.window.imp id fun hwin => ⟨hwin.edge, hwin.room⟩⟩) fun _ hf => hf
  have hpold : Keeps (Placed n S c ⟨handles, [h], access⟩ fun _ => True)
      (modifyFile h fun f => f.setOld resolved.root) := by
    rw [hset]
    exact placed_modifyFile (fun _ => ⟨rfl, rfl, rfl, rfl⟩) fun _ hres => hres
  rw [openWrite, bind_of_ok (run_modifyFile h _ w)]
  have hw1 := hold.keeps w hw
  have hp1 := hpold.keeps w hp
  have halloc : Gives (With (Writers g S c size P Q (fun _ => True) fun _ => False) h File.New)
      (allocNextSector h) fun _ w => (w.files h).unreserved.New ∧ (w.files h).unreserved.AtWindow S := hnew.alloc
  generalize hv1 : { w with files := fun k => if k = h then (w.files k).setOld resolved.root else w.files k } = v1
  rw [run_modifyFile, hv1] at hw1 hp1
  have hw2 := halloc.keeps v1 hw1
  have hp2 := (@allocNextSector_yields _ n S c ⟨handles, [h], access⟩ (fun _ => True) _ h).keeps v1 hp1
  rcases hrun : (allocNextSector h).run v1 with ⟨r, v2⟩
  rw [hrun] at hw2 hp2
  cases r with
  | error e =>
    rw [run_bind, hrun]
    exact hw2.1
  | ok sector =>
    have hsector : InData n c sector := allocNextSector_yields.value v1 sector hp1 (by rw [hrun])
    have hpost := halloc.post v1 sector hw1 (by rw [hrun])
    rw [hrun] at hpost
    dsimp only at hpost
    obtain ⟨hsized, hroom⟩ := startRoot_fits (g := g) hpost.1 hpost.2 hsector.2 hname
    have hopen : v2.fs.openFiles = handles := hp2.opened
    have hno : h ∉ v2.fs.openFiles := fun hmem => hh (hopen ▸ hmem)
    rw [bind_of_ok hrun, bind_of_ok (run_note _ v2), bind_of_ok (run_modifyFile h _ _)]
    have hnote : Writers g S c size P Q (fun _ => True) (fun _ => False)
        ((note (.narrow [1 + (cstr name).length + 1])).run v2).2 :=
      (keeps_narrow fun v hv => by
        cases List.mem_singleton.mp hv
        rw [maxName] at hname
        omega : Keeps (Writers g S c size P Q (fun _ => True) fun _ => False) _).keeps v2 hw2.1
    have hroot := hnote.modifyFile (h := h) (f := fun f => f.startRoot name sector) nofun
      (fun hmem => absurd hmem hno) fun hmem => absurd hmem hno
    refine hroot.register hno fun _ => ?_
    have hfile : ((modifyFile h fun f => f.startRoot name sector).run
        ((note (.narrow [1 + (cstr name).length + 1])).run v2).2).2.files h =
          (v2.files h).startRoot name sector := if_pos rfl
    rw [hfile]
    have hsame : ((v2.files h).startRoot name sector).unreserved =
        ((v2.files h).unreserved.startRoot name sector).unreserved := rfl
    exact ⟨hsized.congr hsame, hroom.congr hsame⟩

omit [Opts] [Watch g S c P Q] in
/-- The read branch of `fffs_open`. -/
theorem openRead_writers {slot head : Nat} {root : RootMd} (hh : h ∉ w.fs.openFiles)
    (hw : Writers g S c size P Q (fun _ => True) (fun _ => False) w) :
    Writers g S c size P Q (fun _ => True) (fun _ => False) ((openRead h slot head root).run w).2 := by
  have hread : Keeps (fun v => Writers g S c size P Q (fun _ => True) (fun _ => False) v ∧
      v.fs.openFiles = w.fs.openFiles) (readMdForSlot head slot) := by
    have hinv : ReadInv fun v => Writers g S c size P Q (fun _ => True) (fun _ => False) v ∧
        v.fs.openFiles = w.fs.openFiles := ⟨fun hv => ⟨ReadInv.ofRead hv.1, hv.2⟩⟩
    infer_instance
  rw [openRead]
  refine hread.bind_to (fun r v hv => ?_) (fun _ hv => hv.1) ⟨hw, rfl⟩
  have hnov : h ∉ v.fs.openFiles := hv.2 ▸ hh
  have hroot := hv.1.modifyFile (h := h) (f := fun _ => File.ofRoot slot head root r.spanLen) nofun
    (fun hmem => absurd hmem hnov) fun hmem => absurd hmem hnov
  have hfile : ((modifyFile h fun _ => File.ofRoot slot head root r.spanLen).run v).2.files h =
      File.ofRoot slot head root r.spanLen := if_pos rfl
  rw [bind_of_ok (run_modifyFile h _ v)]
  refine hroot.register hnov fun hwr => ?_
  rw [hfile] at hwr
  cases hwr

/-- `fffs_open`. -/
theorem openFile_writers {name : List Byte} {flags : OpenFlags} (hp : Placed n S c L (fun _ => True) w)
    (hs : L.starting = []) (hh : h ∉ L.handles)
    (hw : Writers g S c size P Q (fun _ => True) (fun _ => False) w) :
    Writers g S c size P Q (fun _ => True) (fun _ => False) ((openFile h name flags).run w).2 := by
  have hno : h ∉ w.fs.openFiles := hp.opened ▸ hh
  have hfresh : h ∉ L.starting ++ L.handles := by
    rw [hs]
    exact hh
  have hp1 := hp.modifyFresh (f := fun _ => { closed := false }) hfresh fun hne => absurd rfl hne
  have hw1 : With (Writers g S c size P Q (fun _ => True) fun _ => False) h File.New
      ((modifyFile h fun _ => { closed := false }).run w).2 := by
    refine ⟨hw.modifyFile nofun (fun hmem => absurd hmem hno) fun hmem => absurd hmem hno, ?_⟩
    have hfile : ((modifyFile h fun _ => { closed := false }).run w).2.files h = { closed := false } := if_pos rfl
    rw [hfile]
    exact ⟨rfl, rfl⟩
  rw [run_modifyFile] at hw1 hp1
  rw [openFile, bind_of_ok (run_modifyFile h _ w)]
  split
  · exact hw1.1
  have hw2 := (inferInstance : Keeps (With (Writers g S c size P Q (fun _ => True) fun _ => False) h File.New)
    (indexResolve name flags.rdonly)).keeps _ hw1
  have hyields : Yields (Placed n S c L fun _ => True) (indexResolve name flags.rdonly) fun r =>
    NameSlot r.slot := indexResolve_yields
  have hp2 := hyields.keeps _ hp1
  rcases hrun : (indexResolve name flags.rdonly).run
    { w with files := fun k => if k = h then { closed := false } else w.files k } with ⟨r, v⟩
  rw [hrun] at hw2 hp2
  cases r with
  | error e =>
    rw [run_bind, hrun]
    exact hw2.1
  | ok resolved =>
    have hslot : NameSlot resolved.slot := hyields.value _ resolved hp1 (by rw [hrun])
    have hname := indexResolve_name hrun
    have hopen : v.fs.openFiles = L.handles := hp2.opened
    have hnov : h ∉ v.fs.openFiles := hopen ▸ hh
    rw [bind_of_ok hrun]
    have hwrite : ∀ f : File → File, (∀ x : File, x.New → (f x).New) → (f (v.files h)).access = .wronly →
        (f (v.files h)).slot = resolved.slot → (f (v.files h)).reservedIn n c →
        Writers g S c size P Q (fun _ => True) (fun _ => False)
          ((do modifyFile h f; openWrite h name resolved : M Unit).run v).2 := by
      intro f hnew hacc hfslot hres
      have hp3 := hp2.start hs hh hacc (fun _ => hfslot ▸ hslot) hres
      have hw3 : With (Writers g S c size P Q (fun _ => True) fun _ => False) h File.New
          ((modifyFile h f).run v).2 := by
        refine ⟨hw2.1.modifyFile nofun (fun hmem => absurd hmem hnov) fun hmem => absurd hmem hnov, ?_⟩
        have hfile : ((modifyFile h f).run v).2.files h = f (v.files h) := if_pos rfl
        rw [hfile]
        exact hnew (v.files h) hw2.2
      rw [bind_of_ok (run_modifyFile h f v)]
      exact openWrite_writers hname hp3 hh hw3
    split
    · split
      · exact hw2.1
      · split
        · exact hw2.1
        · exact hwrite _ (fun _ hx => hx) rfl rfl (hp2.reserved h)
    · next head root _ =>
      split
      · exact hw2.1
      · split
        · exact openRead_writers hnov hw2.1
        · exact hwrite _ (fun _ hx => hx) rfl rfl (hp2.reserved h)

/-! ## Calls -/

omit [Opts] [Watch g S c P Q] in
/-- A call that only reads through a handle. -/
theorem reader_writers {α : Type} {x : M α} (hx : Keeps (WritersRead g S c size P Q h) x)
    (hread : (w.files h).access = .rdonly)
    (hw : Writers g S c size P Q (fun _ => True) (fun _ => False) w) :
    Writers g S c size P Q (fun _ => True) (fun _ => False) (x.run w).2 :=
  (hx.keeps w ⟨hw, hread⟩).1

/-- Every legal call but a mount keeps the invariant. -/
theorem stepOp_writers {op : Op} (hb : Between n S c (fun _ => True) w) (hop : legalOp w op)
    (hno : ∀ o, op ≠ .remount o) (hw : Writers g S c size P Q (fun _ => True) (fun _ => False) w) :
    Writers g S c size P Q (fun _ => True) (fun _ => False) (stepOp w op) := by
  obtain ⟨L, hs, hp⟩ := hb
  have hopened : ∀ {k}, k ∈ w.fs.openFiles → k ∈ L.handles := fun hk => hp.opened ▸ hk
  have hkeeps : ∀ {α : Type} {x : M α}, Keeps (Writers g S c size P Q (fun _ => True) fun _ => False) x →
      Writers g S c size P Q (fun _ => True) (fun _ => False) ((do let _ ← x : M Unit).run w).2 :=
    fun hx => Keeps.after (hx.keeps w hw) fun _ => inferInstance
  cases op with
  | openFile h name flags => exact openFile_writers hp hs (fun hmem => hop (hp.opened.symm ▸ hmem)) hw
  | read h want =>
    refine Keeps.after ?_ fun _ => inferInstance
    rw [read, bind_of_ok (run_get w)]
    dsimp only
    split
    · exact hw
    · next hok =>
      rw [not_or, not_not] at hok
      exact reader_writers inferInstance hok.2 hw
  | seek h offset whence =>
    refine Keeps.after ?_ fun _ => inferInstance
    rw [seek, bind_of_ok (run_getFile h w)]
    split
    · exact hw
    · next hok =>
      rw [not_or, not_not] at hok
      exact reader_writers (h := h) inferInstance hok.2 hw
  | write h src => exact write_writers hp (hopened hop) hw
  | close h => exact close_writers hop hw
  | fstat h => exact hkeeps inferInstance
  | stat name => exact hkeeps inferInstance
  | deleteFile name =>
    have hdelete : Keeps (Writers g S c size P Q (fun _ => True) fun _ => False) (deleteFile name) := by
      have hchain : ∀ slot head next, Keeps (Writers g S c size P Q (fun _ => True) fun _ => False)
          (invalidateCommitted slot head next) := fun _ _ _ => invalidateCommitted_keeps fun _ => inferInstance
      unfold deleteFile
      refine Keeps.bind (k := fun resolved => ?_)
      split <;> infer_instance
    exact hdelete.keeps w hw
  | list => exact hkeeps inferInstance
  | fsinfo refresh refreshIfNeeded estimate => exact hkeeps inferInstance
  | gcStep => exact hkeeps inferInstance
  | gc maxSteps => exact hkeeps inferInstance
  | remount o => exact absurd rfl (hno o)

end Write

end Watched

/-! ## Runs -/

/-- The chip, and what has happened on it. -/
structure Chip (g size : Nat) (P : Fs → File → Bool → Prop) (Q : List Nat → Prop) (w : World) : Prop where
  chipSize : w.dev.size = size
  granule : w.dev.programGranule = g
  events : ∀ e ∈ w.trace, e.Meets P Q

omit [Opts] in
instance : ReadInv (Chip g size P Q) := ⟨fun hw => ⟨hw.chipSize, hw.granule, hw.events⟩⟩

/-- A mounted file system without an open handle. -/
structure Idle (g size : Nat) (P : Fs → File → Bool → Prop) (Q : List Nat → Prop) (w : World) : Prop
    extends Chip g size P Q w where
  indexSectors_pos : 0 < w.fs.indexSectors
  openFiles : w.fs.openFiles = []

omit [Opts] in
instance : FrameInv (Idle g size P Q) where
  indexSectors_pos hw := hw.indexSectors_pos
  ofView {w w'} h hw := by
    simp only [ramView, RamView.mk.injEq] at h
    obtain ⟨-, hopen, -, hidx, -, -, -, -, -, hchip, hgranule, htrace⟩ := h
    exact ⟨⟨hchip ▸ hw.chipSize, hgranule ▸ hw.granule, htrace ▸ hw.events⟩, hidx ▸ hw.indexSectors_pos,
      hopen ▸ hw.openFiles⟩
  noteErase _ hw := { hw with events := List.forall_mem_cons.mpr ⟨trivial, hw.events⟩ }

/-- A state between two calls, with sectors of `S` bytes. -/
structure Served (g S c size : Nat) (P : Fs → File → Bool → Prop) (Q : List Nat → Prop) (w : World) : Prop where
  shift : ∃ shift, S = sectorSizeOf shift
  count_le : c ≤ uint16Max
  sectors : c * S ≤ size
  placed : ∃ n, Between n S c (fun _ => True) w
  writers : Writers g S c size P Q (fun _ => True) (fun _ => False) w

/-- `fffs_unmount` and `fffs_mount`. -/
theorem remount_served {options : MountOptions} (hw : Chip g size P Q w)
    (h : (remount options).run w = (.ok (), w')) :
    Served g w'.fs.sectorSize w'.fs.sectorCount size P Q w' := by
  have hmount : (mount options).run { w with fs := {}, files := fun _ => {} } = (.ok (), w') :=
    (remount_run options w).symm.trans h
  have hmap : Keeps (Idle g size P Q) (modifyFs allocMapInit) := by
    constructor
    intro v hv
    rw [run_modifyFs, allocMapInit]
    split <;> exact { hv with }
  have hreplay : Keeps (Idle g size P Q) mountReplay := by
    unfold mountReplay; infer_instance
  have hstart : Chip g size P Q { w with fs := {}, files := fun _ => {} } := ⟨hw.chipSize, hw.granule, hw.events⟩
  have hidle : Idle g size P Q w' := by
    refine mount_reaches (w := { w with fs := {}, files := fun _ => {} }) (R := Chip g size P Q) hstart ?_ hmount
    intro v seq hv hidx _
    exact ⟨⟨hv.chipSize, hv.granule, hv.events⟩, Nat.lt_of_lt_of_le Nat.two_pos hidx, rfl⟩
  have hfresh := remount_fresh h
  obtain ⟨seq, w1, -, -, -, hsame⟩ := mount_same hmount
  have hno : ∀ k, k ∉ w'.fs.openFiles := by simp [hidle.openFiles]
  refine ⟨⟨seq.sectorShift, hsame.sectorSize⟩, hfresh.count_le, ?_,
    ⟨w'.fs.indexSectors, hfresh.between trivial⟩, ?_⟩
  · have hsectors := mount_sectors hmount
    rw [hidle.chipSize] at hsectors
    exact hsectors
  · exact ⟨hidle.indexSectors_pos, rfl, rfl, hidle.chipSize, hidle.granule, hidle.openFiles ▸ List.nodup_nil,
      (fun _ hno => by cases hno), fun k hk => absurd hk (hno k), fun k hk => absurd hk (hno k), hidle.events⟩

/-- One call that meets `cond` keeps what is served. -/
theorem stepOp_served {op : Op} (hwatch : Watch g S c P Q) (hop : legalOp w op) (hw : Served g S c size P Q w) :
    ∃ S' c', Served g S' c' size P Q (stepOp w op) := by
  by_cases hno : ∀ o, op ≠ .remount o
  · obtain ⟨n, hn⟩ := hw.placed
    exact ⟨S, c, hw.shift, hw.count_le, hw.sectors, ⟨n, hn.step hop hno⟩, stepOp_writers hn hop hno hw.writers⟩
  · rw [not_forall] at hno
    obtain ⟨o, hremount⟩ := hno
    rw [not_not] at hremount
    subst hremount
    have hchip : Chip g size P Q w := ⟨hw.writers.chipSize, hw.writers.granule, hw.writers.events⟩
    have hok : (remount o).run w = (.ok (), stepOp w (.remount o)) := Prod.ext hop rfl
    exact ⟨_, _, remount_served hchip hok⟩

/-- The run lemma: what a writer with room meets at a flush, and numbers below 65536 at a
conversion, holds all along a run whose calls meet `cond`. -/
theorem watched_run {options : MountOptions} {cond : World → Prop} {w0 w1 : World} (htrace : w0.trace = [])
    (hwatch : ∀ (v : World) shift c, cond v → v.dev.programGranule = w0.dev.programGranule →
      v.fs.sectorSize = sectorSizeOf shift → c ≤ uint16Max → c * sectorSizeOf shift ≤ w0.dev.size →
      Watch w0.dev.programGranule (sectorSizeOf shift) c P Q)
    (hmount : (remount options).run w0 = (.ok (), w1))
    (hrun : Steps stepOp (fun w op => legalOp w op ∧ cond w) w1 w) :
    ∃ S c, Served w0.dev.programGranule S c w0.dev.size P Q w := by
  have hstart : ∃ S c, Served w0.dev.programGranule S c w0.dev.size P Q w1 :=
    ⟨_, _, remount_served ⟨rfl, rfl, by simp [htrace]⟩ hmount⟩
  refine hrun.invariant (I := fun v => ∃ S c, Served w0.dev.programGranule S c w0.dev.size P Q v) ?_ hstart
  rintro v op ⟨S, c, hserved⟩ hop
  obtain ⟨shift, hshift⟩ := hserved.shift
  subst hshift
  have hw := hserved.writers
  exact stepOp_served (hwatch v shift c hop.2 hw.granule hw.sectorSize hserved.count_le hserved.sectors)
    hop.1 hserved

end Fastffs
