import Fastffs.ReadEnds
import Mathlib.Data.List.Chain
import Mathlib.Data.Finset.Card

/-!
# Read handles in step with their file

A read handle keeps its place twice.  `pos` counts from the start of the file, and the
cursor is an extent and a place in it.  While the two agree, `fffs_read` delivers the bytes at `pos`.

Two calls can part them, or part the cache from the flash (`handle_in_step`).  A seek moves the cursor from
extent to extent and sets `pos` only at the end, so a backend read that fails on the way leaves the cursor
behind.  `fill_read_cache` reads into the cache before it knows that the read works.
-/

namespace Fastffs

open Prog
open Nor (Mem Byte blank)

/-! ## The extents of a file -/

/-- An extent of a file: where its bytes lie, and what its record says of the next one. -/
structure Extent where
  sector : Nat
  off : Nat
  len : Nat
  span : Nat
  next : Nat
  /-- The place of its first byte in the file. -/
  offset : Nat
deriving DecidableEq, Repr

/-- The sector of the next extent. -/
def Extent.link (e : Extent) : Nat := if e.span > 1 then u16 (e.sector + 1) else e.next

def Extent.bytes (w : World) (e : Extent) : List Byte :=
  Nor.read w.dev.mem (e.sector * w.fs.sectorSize + e.off) e.len

def Extent.ofRecord (sector offset : Nat) (r : MdRecord) : Extent :=
  ⟨sector, r.dataOff, r.dataLen, r.spanLen, r.next, offset⟩

def Extent.ofRoot (head : Nat) (root : RootMd) : Extent :=
  ⟨head, root.payloadDataOff, root.payloadDataLen, root.spanLen, root.next, 0⟩

/-- The extent of a handle. -/
def File.extent (f : File) : Extent :=
  ⟨f.current, f.dataOffset, f.currentDataLen, f.spanLen, f.currentNext, f.currentFileOffset⟩

/-- The extent `e'` of the slot comes after `e`, and its record knows its place in the file. -/
structure Follows (w : World) (slot : Nat) (e e' : Extent) : Prop where
  link : e.link ≠ 0
  record : (extentAt w slot e.link).map (Extent.ofRecord e.link (e.offset + e.len)) = some e'
  offset : (extentAt w slot e.link).map MdRecord.fileOffset = some (e.offset + e.len)

/-- The extents of the file of a slot with the given head, as far as the links lead. -/
structure Chain (w : World) (slot head : Nat) (es : List Extent) : Prop where
  root : ∃ root, headRootAt w slot head = some root ∧ es.head? = some (Extent.ofRoot head root)
  links : es.IsChain (Follows w slot)
  ends : ∀ e, es.getLast? = some e → e.link = 0 ∨ extentAt w slot e.link = none
  /-- The sectors of a span hold the next extents. -/
  spans : ∀ i g e, es[i]? = some e → 0 < g → g < e.span →
    (es[i + g]?).map Extent.sector = some (u16 (e.sector + g))
  sectors : (es.map Extent.sector).Nodup
  total : ∀ e ∈ es, e.offset + e.len < 4294967296
  payload : ∀ r, extentAt w slot head = some r → r.dataOff + payloadOffset w head r < 65536

/-- The bytes of the extents. -/
def content (w : World) (es : List Extent) : List Byte := es.flatMap (Extent.bytes w)

section Chains

variable {w : World} {slot head i : Nat} {es : List Extent} {e e' : Extent} {r : MdRecord}

@[simp] theorem content_nil (w : World) : content w [] = [] := rfl

@[simp] theorem content_cons (w : World) (e : Extent) (es : List Extent) :
    content w (e :: es) = e.bytes w ++ content w es := List.flatMap_cons

@[simp] theorem Extent.length_bytes (w : World) (e : Extent) : (e.bytes w).length = e.len := Nor.length_read ..

theorem Follows.eq_of_record (h : Follows w slot e e') (hr : extentAt w slot e.link = some r) :
    e' = Extent.ofRecord e.link (e.offset + e.len) r ∧ r.fileOffset = e.offset + e.len := by
  have hrecord := h.record
  have hoffset := h.offset
  rw [hr] at hrecord hoffset
  exact ⟨(Option.some.inj hrecord).symm, Option.some.inj hoffset⟩

theorem Follows.exists_record (h : Follows w slot e e') : ∃ r, extentAt w slot e.link = some r ∧
    e' = Extent.ofRecord e.link (e.offset + e.len) r ∧ r.fileOffset = e.offset + e.len := by
  cases hr : extentAt w slot e.link with
  | none =>
    have hrecord := h.record
    rw [hr] at hrecord
    cases hrecord
  | some r => exact ⟨r, rfl, h.eq_of_record hr⟩

variable (hc : Chain w slot head es)
include hc

theorem Chain.follows (he : es[i]? = some e) (he' : es[i + 1]? = some e') : Follows w slot e e' := by
  obtain ⟨hi, rfl⟩ := List.getElem?_eq_some_iff.mp he
  obtain ⟨hi', rfl⟩ := List.getElem?_eq_some_iff.mp he'
  exact List.isChain_iff_getElem.mp hc.links i hi'

theorem Chain.ends_of_last (he : es[i]? = some e) (hlast : es[i + 1]? = none) :
    e.link = 0 ∨ extentAt w slot e.link = none := by
  obtain ⟨hi, -⟩ := List.getElem?_eq_some_iff.mp he
  have hlen : es.length - 1 = i := by
    have hle := List.getElem?_eq_none_iff.mp hlast
    omega
  refine hc.ends e ?_
  rw [List.getLast?_eq_getElem?, hlen]
  exact he

/-- Where a link leads, the next extent is. -/
theorem Chain.next (he : es[i]? = some e) (hlink : e.link ≠ 0) (hr : extentAt w slot e.link = some r) :
    es[i + 1]? = some (Extent.ofRecord e.link (e.offset + e.len) r) := by
  cases hnext : es[i + 1]? with
  | none =>
    rcases hc.ends_of_last he hnext with hzero | hnone
    · exact absurd hzero hlink
    · rw [hr] at hnone
      cases hnone
  | some e' => rw [((hc.follows he hnext).eq_of_record hr).1]

/-- A record in a span is that of an extent further on. -/
theorem Chain.hunted {g : Nat} (he : es[i]? = some e) (hpos : 0 < g) (hspan : g < e.span)
    (hr : extentAt w slot (u16 (e.sector + g)) = some r) :
    es[i + g]? = some (Extent.ofRecord (u16 (e.sector + g)) r.fileOffset r) := by
  have hsector := hc.spans i g e he hpos hspan
  cases hnext : es[i + g]? with
  | none =>
    rw [hnext] at hsector
    cases hsector
  | some e' =>
    rw [hnext] at hsector
    obtain ⟨k, hk⟩ : ∃ k, i + g = k + 1 := ⟨i + g - 1, by omega⟩
    rw [hk] at hnext
    obtain ⟨hlt, -⟩ := List.getElem?_eq_some_iff.mp hnext
    have hprev : es[k]? = some es[k] := List.getElem?_eq_getElem (by omega)
    obtain ⟨r', hr', rfl, hoffset⟩ := (hc.follows hprev hnext).exists_record
    have hlink : es[k].link = u16 (e.sector + g) := Option.some.inj hsector
    rw [hlink, hr] at hr'
    cases hr'
    rw [hlink, hoffset]

theorem Chain.sector_readable {g : Nat} (he : es[i]? = some e) (hpos : 0 < g) (hspan : g < e.span) :
    extentAt w slot (u16 (e.sector + g)) ≠ none := by
  have hsector := hc.spans i g e he hpos hspan
  cases hnext : es[i + g]? with
  | none =>
    rw [hnext] at hsector
    cases hsector
  | some e' =>
    rw [hnext] at hsector
    obtain ⟨k, hk⟩ : ∃ k, i + g = k + 1 := ⟨i + g - 1, by omega⟩
    rw [hk] at hnext
    obtain ⟨hlt, -⟩ := List.getElem?_eq_some_iff.mp hnext
    have hprev : es[k]? = some es[k] := List.getElem?_eq_getElem (by omega)
    obtain ⟨r', hr', rfl, -⟩ := (hc.follows hprev hnext).exists_record
    have hlink : es[k].link = u16 (e.sector + g) := Option.some.inj hsector
    rw [← hlink, hr']
    nofun

/-- The bytes from an extent on. -/
theorem Chain.content_drop (he : es[i]? = some e) : (content w es).drop e.offset = content w (es.drop i) := by
  induction i generalizing e with
  | zero =>
    obtain ⟨root, -, hhead⟩ := hc.root
    rw [← List.head?_eq_getElem?, hhead] at he
    cases he
    rfl
  | succ i ih =>
    obtain ⟨hi, -⟩ := List.getElem?_eq_some_iff.mp he
    have hprev : es[i]? = some es[i] := List.getElem?_eq_getElem (by omega)
    obtain ⟨r, -, rfl, -⟩ := (hc.follows hprev he).exists_record
    have hrest := ih hprev
    rw [List.drop_eq_getElem_cons (show i < es.length by omega), content_cons] at hrest
    change (content w es).drop (es[i].offset + es[i].len) = _
    rw [← List.drop_drop, hrest, ← Extent.length_bytes w es[i], List.drop_left]

theorem Chain.content_at (he : es[i]? = some e) :
    (content w es).drop e.offset = e.bytes w ++ content w (es.drop (i + 1)) := by
  obtain ⟨hi, rfl⟩ := List.getElem?_eq_some_iff.mp he
  rw [hc.content_drop he, List.drop_eq_getElem_cons hi, content_cons]

theorem Chain.content_of_last (he : es[i]? = some e) (hlast : es[i + 1]? = none) :
    (content w es).length ≤ e.offset + e.len := by
  have hlen := congrArg List.length (hc.content_at he)
  rw [List.drop_eq_nil_of_le (List.getElem?_eq_none_iff.mp hlast), content_nil, List.append_nil,
    Extent.length_bytes, List.length_drop] at hlen
  omega

theorem Chain.total_at (he : es[i]? = some e) : e.offset + e.len < 4294967296 :=
  hc.total e (List.mem_of_getElem? he)

theorem Chain.sector_lt (he : e ∈ es) : e.sector < w.fs.sectorCount := by
  obtain ⟨i, hi, rfl⟩ := List.mem_iff_getElem.mp he
  cases i with
  | zero =>
    obtain ⟨root, hroot, hhead⟩ := hc.root
    obtain ⟨r, hread⟩ := headRootAt_ok hroot
    rw [List.head?_eq_getElem?, List.getElem?_eq_getElem hi] at hhead
    rw [Option.some.inj hhead]
    exact (extentAt_bounds hread.extent).1
  | succ i =>
    obtain ⟨r, hr, heq, -⟩ := (hc.follows (List.getElem?_eq_getElem (by omega))
      (List.getElem?_eq_getElem hi)).exists_record
    rw [heq]
    exact (extentAt_bounds hr).1

/-- A file has no more extents than there are sectors. -/
theorem Chain.length_le : es.length ≤ w.fs.sectorCount := by
  have hsub : (es.map Extent.sector).toFinset ⊆ Finset.range w.fs.sectorCount := by
    intro s hs
    obtain ⟨e, he, rfl⟩ := List.mem_map.mp (List.mem_toFinset.mp hs)
    exact Finset.mem_range.mpr (hc.sector_lt he)
  have hcard := Finset.card_le_card hsub
  rwa [List.toFinset_card_of_nodup hc.sectors, List.length_map, Finset.card_range] at hcard

end Chains

/-! ## The place of a handle -/

/-- The handle stands at an extent of the chain, inside its bytes, and its cache is right. -/
structure OnChain (w : World) (es : List Extent) (f : File) : Prop where
  extent : ∃ i : Nat, es[i]? = some f.extent
  inside : f.currentDataPos ≤ f.currentDataLen
  len : f.currentDataLen < 65536
  span : f.spanLen < 65536
  cache : CacheRight w f

/-- The cursor of the handle stands at `pos`. -/
def File.inStep (f : File) : Prop := f.pos = f.currentFileOffset + f.currentDataPos

section Reading

variable {w v : World} {head h want fuel : Nat} {es : List Extent} {f g : File} {plan : List Fault}
  {bs : List Byte}

theorem extent_of_place (hplace : f.place = g.place) : f.extent = g.extent := by
  change f.place.extent = g.place.extent
  rw [hplace]

theorem inStep_of_place (hplace : f.place = g.place) : f.inStep ↔ g.inStep := by
  change f.place.inStep ↔ g.place.inStep
  rw [hplace]

theorem OnChain.of_place (hg : OnChain w es g) (hplace : f.place = g.place) (hcache : CacheRight w f) :
    OnChain w es f := by
  have hplaced : f.place.currentDataPos ≤ f.place.currentDataLen ∧ f.place.currentDataLen < 65536 ∧
      f.place.spanLen < 65536 := by
    rw [hplace]
    exact ⟨hg.inside, hg.len, hg.span⟩
  exact ⟨by rw [extent_of_place hplace]; exact hg.extent, hplaced.1, hplaced.2.1, hplaced.2.2, hcache⟩

theorem OnChain.total (hc : Chain w f.slot head es) (hf : OnChain w es f) :
    f.currentFileOffset + f.currentDataLen < 4294967296 := by
  obtain ⟨i, hi⟩ := hf.extent
  exact hc.total_at hi

/-- A handle that enters the next extent. -/
theorem OnChain.enter {r : MdRecord} {i : Nat} (hc : Chain w f.slot head es) (hi : es[i]? = some f.extent)
    (hlink : f.nextSector ≠ 0) (hr : extentAt w f.slot f.nextSector = some r) :
    es[i + 1]? = some (f.enter f.nextSector r (u32 (f.currentFileOffset + f.currentDataLen)) 0).extent ∧
      OnChain w es (f.enter f.nextSector r (u32 (f.currentFileOffset + f.currentDataLen)) 0) := by
  have hnext := hc.next hi hlink hr
  have htotal := hc.total_at hi
  have heq : (f.enter f.nextSector r (u32 (f.currentFileOffset + f.currentDataLen)) 0).extent =
      Extent.ofRecord f.extent.link (f.extent.offset + f.extent.len) r := by
    have hu : u32 (f.currentFileOffset + f.currentDataLen) = f.extent.offset + f.extent.len := u32_of_lt htotal
    rw [hu]
    rfl
  rw [← heq] at hnext
  exact ⟨hnext, ⟨_, hnext⟩, Nat.zero_le _, (extentAt_bounds hr).2.1, (extentAt_bounds hr).2.2.1, rfl⟩

/-- A round finds its data at the same place of the file. -/
theorem Arrives.onChain (hc : Chain w f.slot head es) (hf : OnChain w es f) (ha : Arrives w f g) :
    OnChain w es g ∧ g.currentFileOffset + g.currentDataPos = f.currentFileOffset + f.currentDataPos ∧
      g.pos = f.pos := by
  rcases ha with ⟨-, rfl⟩ | ⟨hend, hlink, r, hr, rfl⟩
  · exact ⟨hf, rfl, rfl⟩
  · obtain ⟨i, hi⟩ := hf.extent
    have htotal := hf.total hc
    have hin := hf.inside
    refine ⟨(OnChain.enter hc hi hlink hr).2, ?_, rfl⟩
    change u32 (f.currentFileOffset + f.currentDataLen) + 0 = _
    rw [u32_of_lt htotal]
    omega

/-- The bytes of the flash at a place of an extent are those of the file. -/
theorem Takes.eq_content (hc : Chain w f.slot head es) (hf : OnChain w es f) (ht : Takes w f want bs) :
    ((content w es).drop (f.currentFileOffset + f.currentDataPos)).take bs.length = bs := by
  obtain ⟨i, hi⟩ := hf.extent
  have hle := ht.le
  have hin := hf.inside
  have hlen : f.extent.len = f.currentDataLen := rfl
  have hat := hc.content_at hi
  change (content w es).drop f.currentFileOffset = _ at hat
  rw [← List.drop_drop, hat, List.drop_append_of_le_length (by rw [Extent.length_bytes]; exact hin),
    List.take_append_of_le_length (by rw [List.length_drop, Extent.length_bytes]; omega), Extent.bytes,
    take_drop_read]
  have hbs := ht.right hf.cache
  rw [Nat.min_eq_left (by omega)]
  exact hbs.symm

/-- A round that delivers bytes leaves the handle behind them. -/
theorem Delivers.onChain {f' : File} {plan' : List Fault} (hc : Chain w f.slot head es) (hf : OnChain w es f)
    (hd : Delivers w f want plan bs f' plan') :
    OnChain w es f' ∧ f'.identity = f.identity ∧
      f'.currentFileOffset + f'.currentDataPos = f.currentFileOffset + f.currentDataPos + bs.length ∧
      (f.inStep → f'.inStep) ∧
      ((content w es).drop (f.currentFileOffset + f.currentDataPos)).take bs.length = bs := by
  obtain ⟨g, ha, htakes, hplace, hright⟩ := hd.round
  obtain ⟨hg, hat, hpos⟩ := ha.onChain hc hf
  have hid : g.identity = f.identity := ha.identity
  have hslot : g.slot = f.slot := congrArg (fun k => k.2.2.1) hid
  have hle := htakes.le
  have hin := hg.inside
  have htotal := hg.total (hslot ▸ hc)
  have hnew := advance_currentDataPos (n := bs.length) hg.len (by omega)
  have hadvance : OnChain w es (g.advance bs.length) := by
    refine ⟨hg.extent, ?_, hg.len, hg.span, hg.cache⟩
    rw [hnew]
    change _ ≤ g.currentDataLen
    omega
  have hoffset := congrArg File.currentFileOffset hplace
  have hdata := congrArg File.currentDataPos hplace
  change f'.currentFileOffset = g.currentFileOffset at hoffset
  change f'.currentDataPos = (g.advance bs.length).currentDataPos at hdata
  refine ⟨hadvance.of_place hplace (hright hg.cache), (identity_of_place hplace).trans hid, ?_,
    fun hstep => ?_, ?_⟩
  · rw [hoffset, hdata, hnew]
    omega
  · rw [inStep_of_place hplace, File.inStep, hnew]
    rw [File.inStep] at hstep
    change u32 (g.pos + bs.length) = g.currentFileOffset + _
    rw [u32_of_lt (by omega)]
    omega
  · rw [← hat]
    exact htakes.eq_content (hslot ▸ hc) hg

/-- `fffs_read` that returns delivers the bytes at the cursor, whatever fails elsewhere. -/
theorem readLoop_delivers (hc : Chain w f.slot head es) (hf : OnChain w es f)
    (hrun : (readLoop h fuel want).run (w.withFile h f plan) = (.ok bs, v)) :
    bs = ((content w es).drop (f.currentFileOffset + f.currentDataPos)).take want := by
  induction fuel generalizing f want plan bs v with
  | zero =>
    rw [readLoop] at hrun
    split at hrun
    · next hzero =>
      cases hrun
      rw [hzero, List.take_zero]
    · cases hrun
  | succ fuel ih =>
    rcases Nat.eq_zero_or_pos want with rfl | hwant
    · cases hrun
      rw [List.take_zero]
    obtain ⟨plan', f', -, ⟨b, hd, hround⟩ | ⟨e, -, hround, -⟩⟩ := readLoop_round w h fuel f plan hwant
    · obtain ⟨hf', hid, hat, -, hbytes⟩ := hd.onChain hc hf
      have hslot : f'.slot = f.slot := congrArg (fun k => k.2.2.1) hid
      obtain ⟨g, -, htakes, -, -⟩ := hd.round
      have hle := htakes.le
      rw [hround] at hrun
      obtain ⟨rest, v', hrest, hrun⟩ := bind_ok hrun
      cases hrun
      have hlater := ih (hslot ▸ hc) hf' hrest
      have hsum : want = b.length + (want - b.length) := by omega
      rw [hat, ← List.drop_drop] at hlater
      rw [hlater, hsum, List.take_add, hbytes, Nat.add_sub_cancel_left]
    · rw [hround] at hrun
      cases hrun

/-- The loop of `fffs_read` leaves its handle in step with the file. -/
theorem readLoop_inStep (hc : Chain w f.slot head es) (hf : OnChain w es f) (hstep : f.inStep)
    (hkept : cacheKept f want plan) :
    ∃ g plan', ((readLoop h fuel want).run (w.withFile h f plan)).2 = w.withFile h g plan' ∧
      OnChain w es g ∧ g.inStep ∧ g.identity = f.identity := by
  induction fuel generalizing f want plan with
  | zero =>
    refine ⟨f, plan, ?_, hf, hstep, rfl⟩
    rw [readLoop]
    split
    · rfl
    · rfl
  | succ fuel ih =>
    rcases Nat.eq_zero_or_pos want with rfl | hwant
    · exact ⟨f, plan, rfl, hf, hstep, rfl⟩
    obtain ⟨plan', f', -, ⟨bs, hd, hrun⟩ | ⟨e, -, hrun, hfails⟩⟩ := readLoop_round w h fuel f plan hwant
    · obtain ⟨hf', hid, -, hstep', -⟩ := hd.onChain hc hf
      have hslot : f'.slot = f.slot := congrArg (fun k => k.2.2.1) hid
      obtain ⟨g, plan2, hg, hon, hin, hsame⟩ := ih (hslot ▸ hc) hf' (hstep' hstep) (hd.kept hf.len hkept)
      rw [hrun, snd_bind_pure]
      exact ⟨g, plan2, hg, hon, hin, hsame.trans hid⟩
    · rw [hrun]
      rcases hfails with ⟨rfl, -⟩ | ⟨g, ha, hplace, -, hright⟩
      · exact ⟨f', plan', rfl, hf, hstep, rfl⟩
      · obtain ⟨hg, hat, hpos⟩ := ha.onChain hc hf
        refine ⟨f', plan', rfl, hg.of_place hplace (hright hkept hg.cache), ?_,
          (identity_of_place hplace).trans ha.identity⟩
        rw [inStep_of_place hplace, File.inStep, hpos, hat]
        exact hstep

end Reading

/-! ## Seeking along a chain -/

/-- What a seek looks up at an extent before it moves: the hunt in the span, and the record of the next
extent. -/
def seekLookup (h target : Nat) (f : File) : M MdRecord := do
  let _ ← huntCurrentSpan h target
  readMdForSlot f.nextSector f.slot

/-- The handle `f` at the next extent. -/
def File.onward (f : File) (r : MdRecord) : File :=
  f.enter f.nextSector r (u32 (f.currentFileOffset + f.currentDataLen)) 0

/-- The seek of the handle `f`, at the answers `plan` of the device, does not fail once its cursor has left
`pos`. -/
inductive SeekSafe (w : World) (h : Nat) (es : List Extent) (target : Nat) : File → List Fault → Prop where
  /-- The target is in the extent of the handle. -/
  | within {f : File} {plan : List Fault} : target ≤ f.currentFileOffset + f.currentDataLen →
      SeekSafe w h es target f plan
  /-- No call of the backend fails, and the extents reach to the target. -/
  | quiet {f : File} {plan : List Fault} : noFault plan → target ≤ (content w es).length →
      SeekSafe w h es target f plan
  /-- A lookup fails while the cursor is at `pos`. -/
  | stopped {f : File} {plan : List Fault} {e : Status} {v : World} : f.inStep →
      (seekLookup h target f).run (w.withFile h f plan) = (.error e, v) → SeekSafe w h es target f plan
  /-- The lookups work, and the seek goes on from the next extent. -/
  | onward {f : File} {plan : List Fault} {r : MdRecord} {v : World} : f.inStep →
      (seekLookup h target f).run (w.withFile h f plan) = (.ok r, v) →
      SeekSafe w h es target (f.onward r) v.dev.plan → SeekSafe w h es target f plan

section Seeking

variable {w v : World} {h head target depth i : Nat} {es : List Extent} {f g : File} {plan : List Fault}

/-- The handle at a target inside its extent. -/
theorem OnChain.move (hf : OnChain w es f) (hlow : f.currentFileOffset ≤ target)
    (hin : target ≤ f.currentFileOffset + f.currentDataLen) :
    OnChain w es { f with currentDataPos := target - f.currentFileOffset, pos := target } ∧
      ({ f with currentDataPos := target - f.currentFileOffset, pos := target } : File).inStep := by
  refine ⟨⟨hf.extent, ?_, hf.len, hf.span, hf.cache⟩, ?_⟩
  · change target - f.currentFileOffset ≤ f.currentDataLen
    omega
  · change target = f.currentFileOffset + (target - f.currentFileOffset)
    omega

/-- The hunt that finds the target leaves the handle at it. -/
theorem OnChain.seekTo {guess : Nat} {r : MdRecord} (hc : Chain w f.slot head es) (hi : es[i]? = some f.extent)
    (hpos : 1 ≤ guess) (hspan : guess ≤ f.spanLen - 1) (hr : extentAt w f.slot (u16 (f.current + guess)) = some r)
    (hlow : r.fileOffset ≤ target) (hin : target ≤ u32 (r.fileOffset + r.dataLen)) :
    OnChain w es (f.seekTo (u16 (f.current + guess)) r target) ∧
      (f.seekTo (u16 (f.current + guess)) r target).inStep := by
  have hext := hc.hunted hi hpos (show guess < f.spanLen by omega) hr
  have htotal := hc.total_at hext
  change r.fileOffset + r.dataLen < 4294967296 at htotal
  rw [u32_of_lt htotal] at hin
  refine ⟨⟨⟨_, hext⟩, ?_, (extentAt_bounds hr).2.1, (extentAt_bounds hr).2.2.1, rfl⟩, ?_⟩
  · change target - r.fileOffset ≤ r.dataLen
    omega
  · change target = r.fileOffset + (target - r.fileOffset)
    omega

/-- A call that ends with the handle in step with the file. -/
def EndsInStep (w : World) (h : Nat) (es : List Extent) (f : File) (v : World) : Prop :=
  ∃ g plan, v = w.withFile h g plan ∧ OnChain w es g ∧ g.inStep ∧ g.identity = f.identity

theorem OnChain.endsInStep (hf : OnChain w es f) (hstep : f.inStep) :
    EndsInStep w h es f (w.withFile h f plan) := ⟨f, plan, rfl, hf, hstep, rfl⟩

theorem EndsInStep.trans (hid : g.identity = f.identity) (hv : EndsInStep w h es g v) :
    EndsInStep w h es f v := by
  obtain ⟨k, plan, rfl, hk, hstep, heq⟩ := hv
  exact ⟨k, plan, rfl, hk, hstep, heq.trans hid⟩

/-- What one round of the seek at the extent `i` comes to: it is at the target, it fails where it was, or
it goes on from the next extent. -/
inductive SeekRound (w : World) (h : Nat) (es : List Extent) (target i depth : Nat) (f : File)
    (plan : List Fault) : Except Status Unit × World → Prop where
  | found {v : World} : EndsInStep w h es f v → SeekRound w h es target i depth f plan (.ok (), v)
  | failed {e : Status} {plan' : List Fault} : f.currentFileOffset + f.currentDataLen < target →
      (noFault plan → target ≤ (content w es).length → i + (depth + 1) < es.length) →
      SeekRound w h es target i depth f plan (.error e, w.withFile h f plan')
  | onward {r : MdRecord} {plan' : List Fault} : f.currentFileOffset + f.currentDataLen < target → 0 < depth →
      es[i + 1]? = some (f.onward r).extent → OnChain w es (f.onward r) → (noFault plan → noFault plan') →
      (seekLookup h target f).run (w.withFile h f plan) = (.ok r, w.withFile h f plan') →
      SeekRound w h es target i depth f plan ((seekLoop h target depth).run (w.withFile h (f.onward r) plan'))

theorem seekLoop_round (hc : Chain w f.slot head es) (hi : es[i]? = some f.extent) (hf : OnChain w es f)
    (hlow : f.currentFileOffset ≤ target) :
    SeekRound w h es target i depth f plan ((seekLoop h target (depth + 1)).run (w.withFile h f plan)) := by
  have htotal := hf.total hc
  -- the extents that reach past this one go on
  have hmore : f.currentFileOffset + f.currentDataLen < target → target ≤ (content w es).length →
      ∃ e', es[i + 1]? = some e' := fun hlt hle => by
    cases hnext : es[i + 1]? with
    | none =>
      have hlast := hc.content_of_last hi hnext
      change _ ≤ f.currentFileOffset + f.currentDataLen at hlast
      omega
    | some e' => exact ⟨e', rfl⟩
  rw [seekLoop, bind_of_ok (run_getFile h _), withFile_files, u32_of_lt htotal]
  by_cases hin : target > f.currentFileOffset + f.currentDataLen
  · rw [if_pos hin]
    have hhunt : Hunted w h f target 1 (f.spanLen - 1) plan
        ((huntCurrentSpan h target).run (w.withFile h f plan)) := huntCurrentSpan_hunted hf.span
    generalize hout : (huntCurrentSpan h target).run (w.withFile h f plan) = out at hhunt
    cases hhunt with
    | @missed plan1 hplan =>
      rw [bind_of_ok hout, if_neg Bool.false_ne_true]
      by_cases hend : f.nextSector = 0 ∨ depth = 0
      · rw [if_pos hend]
        refine .failed hin fun h0 hle => ?_
        obtain ⟨e', he'⟩ := hmore hin hle
        have hlink := (hc.follows hi he').link
        obtain ⟨hlt, -⟩ := List.getElem?_eq_some_iff.mp he'
        rw [hend.resolve_left hlink]
        exact hlt
      · rw [if_neg hend]
        rw [not_or] at hend
        obtain ⟨plan2, hplan2, ⟨r, hr, hrun⟩ | ⟨e, he, hnone, hrun⟩⟩ :=
          readMdForSlot_cases (w.withFile h f plan1) f.slot f.nextSector
        · have hworld : (w.withFile h f plan1).withPlan plan2 = w.withFile h f plan2 := rfl
          rw [extentAt_withFile] at hr
          rw [hworld] at hrun
          obtain ⟨hnext, hon⟩ := OnChain.enter hc hi hend.1 hr
          rw [bind_of_ok hrun, bind_of_ok (run_modifyFile_withFile _), withFile_withFile, withFile_files]
          refine .onward hin (Nat.pos_of_ne_zero hend.2) hnext hon (fun h0 => hplan2 (hplan h0)) ?_
          rw [seekLookup, bind_of_ok hout, hrun]
          rfl
        · rw [extentAt_withFile] at hnone
          rw [bind_of_error hrun]
          refine .failed hin fun h0 hle => ?_
          obtain ⟨e', he'⟩ := hmore hin hle
          obtain ⟨r, hr, -⟩ := (hc.follows hi he').exists_record
          have hnothing := hnone (hplan h0)
          change extentAt w f.slot f.extent.link = none at hnothing
          rw [hr] at hnothing
          cases hnothing
    | @found _ guess r hplan hpos hspan hr hle hlt =>
      rw [bind_of_ok hout, if_pos rfl]
      obtain ⟨hon, hstep⟩ := OnChain.seekTo hc hi hpos hspan hr hle hlt
      exact .found ⟨_, _, rfl, hon, hstep, rfl⟩
    | failed hplan he hnone =>
      rw [bind_of_error hout]
      refine .failed hin fun h0 _ => ?_
      obtain ⟨guess, hpos, hspan, hr⟩ := hnone h0
      exact absurd hr (hc.sector_readable hi hpos (show guess < f.spanLen by omega))
  · rw [if_neg hin, run_modifyFile_withFile, withFile_withFile, withFile_files]
    obtain ⟨hon, hstep⟩ := hf.move hlow (Nat.le_of_not_lt hin)
    exact .found ⟨_, _, rfl, hon, hstep, rfl⟩

theorem onward_identity {r : MdRecord} : (f.onward r).identity = f.identity := rfl

theorem onward_offset_le {r : MdRecord} (hc : Chain w f.slot head es) (hf : OnChain w es f)
    (hlow : f.currentFileOffset + f.currentDataLen < target) : (f.onward r).currentFileOffset ≤ target :=
  (u32_of_lt (hf.total hc)).trans_le (Nat.le_of_lt hlow)

/-- A seek that no fault meets comes to a target that the extents reach. -/
theorem seekLoop_quiet (hc : Chain w f.slot head es) (hi : es[i]? = some f.extent) (hf : OnChain w es f)
    (hlow : f.currentFileOffset ≤ target) (hdepth : es.length ≤ i + depth) (hplan : noFault plan)
    (hle : target ≤ (content w es).length) :
    ∃ v, (seekLoop h target depth).run (w.withFile h f plan) = (.ok (), v) ∧ EndsInStep w h es f v := by
  induction depth generalizing f i plan with
  | zero =>
    obtain ⟨hlt, -⟩ := List.getElem?_eq_some_iff.mp hi
    omega
  | succ depth ih =>
    have hround : SeekRound w h es target i depth f plan
        ((seekLoop h target (depth + 1)).run (w.withFile h f plan)) := seekLoop_round hc hi hf hlow
    generalize hout : (seekLoop h target (depth + 1)).run (w.withFile h f plan) = out at hround
    cases hround with
    | found hv => exact ⟨_, rfl, hv⟩
    | failed hin hshort =>
      have hlt := hshort hplan hle
      omega
    | @onward r plan' hin hpos hnext hon hplan' hlookup =>
      obtain ⟨v, hrun, hv⟩ := ih (f := f.onward r) hc hnext hon (onward_offset_le hc hf hin) (by omega)
        (hplan' hplan)
      exact ⟨v, hrun, hv.trans onward_identity⟩

/-- A safe seek leaves its handle in step with the file. -/
theorem seekLoop_safe (hc : Chain w f.slot head es) (hsafe : SeekSafe w h es target f plan)
    (hi : es[i]? = some f.extent) (hf : OnChain w es f) (hlow : f.currentFileOffset ≤ target)
    (hdepth : es.length ≤ i + depth) :
    EndsInStep w h es f ((seekLoop h target depth).run (w.withFile h f plan)).2 := by
  induction hsafe generalizing i depth with
  | @within f plan hin =>
    cases depth with
    | zero =>
      obtain ⟨hlt, -⟩ := List.getElem?_eq_some_iff.mp hi
      omega
    | succ depth =>
      have hround : SeekRound w h es target i depth f plan
          ((seekLoop h target (depth + 1)).run (w.withFile h f plan)) := seekLoop_round hc hi hf hlow
      generalize hout : (seekLoop h target (depth + 1)).run (w.withFile h f plan) = out at hround
      cases hround with
      | found hv => exact hv
      | failed hout => omega
      | onward hout => omega
  | quiet hplan hle =>
    obtain ⟨v, hrun, hv⟩ := seekLoop_quiet hc hi hf hlow hdepth hplan hle
    rw [hrun]
    exact hv
  | @stopped f plan e v hstep hlookup =>
    cases depth with
    | zero => exact hf.endsInStep hstep
    | succ depth =>
      have hround : SeekRound w h es target i depth f plan
          ((seekLoop h target (depth + 1)).run (w.withFile h f plan)) := seekLoop_round hc hi hf hlow
      generalize hout : (seekLoop h target (depth + 1)).run (w.withFile h f plan) = out at hround
      cases hround with
      | found hv => exact hv
      | failed => exact hf.endsInStep hstep
      | onward hin hpos hnext hon hplan' hfound =>
        rw [hlookup] at hfound
        cases hfound
  | @onward f plan r v hstep hlookup hsafe ih =>
    cases depth with
    | zero => exact hf.endsInStep hstep
    | succ depth =>
      have hround : SeekRound w h es target i depth f plan
          ((seekLoop h target (depth + 1)).run (w.withFile h f plan)) := seekLoop_round hc hi hf hlow
      generalize hout : (seekLoop h target (depth + 1)).run (w.withFile h f plan) = out at hround
      cases hround with
      | found hv => exact hv
      | failed => exact hf.endsInStep hstep
      | onward hin hpos hnext hon hplan' hfound =>
        rw [hlookup] at hfound
        cases hfound
        exact (ih hc hnext hon (onward_offset_le hc hf hin) (by omega)).trans onward_identity

end Seeking

/-! ## Calls -/

/-- The seek of a handle to a target is safe: so is the part of it that goes on from the root, if it starts
with the root. -/
def positionSafe (w : World) (h : Nat) (es : List Extent) (target : Nat) (f : File) (plan : List Fault) : Prop :=
  if target < f.currentFileOffset then
    match (readFileRootMdPrefix f.head f.slot false).run (w.withFile h f plan) with
    | (.error _, _) => True
    | (.ok root, v) => SeekSafe w h es target (f.atRoot root) v.dev.plan
  else SeekSafe w h es target f plan

/-- The place that `fffs_seek` is asked for. -/
def seekTarget (f : File) (offset : Int) (whence : Whence) : Int :=
  (match whence with
    | .set => (0 : Int)
    | .cur => f.pos
    | .end => f.size) + offset

/-- The call leaves the cursor at `pos` and the cache right, whatever the device answers. -/
def callSafe (h : Nat) (es : List Extent) (w : World) : HandleCall → Prop
  | .read size plan => cacheKept (w.files h) (wanted (w.files h) size) plan
  | .seek offset whence plan =>
      let target := seekTarget (w.files h) offset whence
      0 ≤ target → target ≤ (w.files h).size → positionSafe w h es target.toNat (w.files h) plan

section Calls

variable {w v : World} {h head target size : Nat} {es : List Extent} {f g : File} {plan : List Fault}

/-- The handle that goes back to the root. -/
theorem OnChain.atRoot {root : RootMd} (hc : Chain w f.slot f.head es)
    (hroot : headRootAt w f.slot f.head = some root) :
    es[0]? = some (f.atRoot root).extent ∧ OnChain w es (f.atRoot root) := by
  obtain ⟨root', hroot', hhead⟩ := hc.root
  rw [hroot] at hroot'
  cases hroot'
  rw [List.head?_eq_getElem?] at hhead
  obtain ⟨r, hread⟩ := headRootAt_ok hroot
  refine ⟨hhead, ⟨0, hhead⟩, Nat.zero_le _, ?_, ?_, rfl⟩
  · change root.payloadDataLen < 65536
    rw [hread.dataLen]
    exact u16_lt _
  · change root.spanLen < 65536
    rw [hread.spanLen]
    exact (extentAt_bounds hread.extent).2.2.1

/-- A safe seek to a place of the file. -/
theorem seekReadPosition_safe (hc : Chain w f.slot f.head es) (hf : OnChain w es f) (hstep : f.inStep)
    (hsafe : positionSafe w h es target f plan) :
    EndsInStep w h es f ((seekReadPosition h target).run (w.withFile h f plan)).2 := by
  rw [seekReadPosition, bind_of_ok (run_get _), withFile_files, withFile_fs]
  rw [positionSafe] at hsafe
  have hdepth : ∀ i, es.length ≤ i + w.fs.sectorCount := fun i => Nat.le_add_left_of_le hc.length_le
  by_cases hback : target < f.currentFileOffset
  · rw [if_pos hback] at hsafe
    rw [when_pos hback, resetReadPositionToRoot]
    obtain ⟨plan', -, ⟨root, hroot, hrun⟩ | ⟨e, -, -, hrun⟩⟩ :=
      reads_cases (readFileRootMdPrefix f.head f.slot false) (w.withFile h f plan)
    · rw [hrun] at hsafe
      have hfound : headRootAt w f.slot f.head = some root := by
        rw [← headRootAt_withFile (w := w) (h := h) (f := f), headRootAt, hroot]
      obtain ⟨hi, hon⟩ := OnChain.atRoot hc hfound
      have hworld : (w.withFile h f plan).withPlan plan' = w.withFile h f plan' := rfl
      have hreset : (getFile h >>= fun file => readFileRootMdPrefix file.head file.slot false >>= fun root =>
          modifyFile h fun k => { k with
            dataOffset := root.payloadDataOff, current := k.head, currentDataLen := root.payloadDataLen
            spanLen := root.spanLen, currentNext := root.next, currentDataPos := 0, currentFileOffset := 0
            cache := [], cacheDataPos := 0 }).run (w.withFile h f plan) =
          (.ok (), w.withFile h (f.atRoot root) plan') := by
        rw [bind_of_ok (run_getFile h _), withFile_files, bind_of_ok hrun, hworld, run_modifyFile_withFile,
          withFile_withFile, withFile_files]
        rfl
      rw [bind_of_ok hreset]
      have hslot : (f.atRoot root).identity = f.identity := rfl
      exact (seekLoop_safe (f := f.atRoot root) hc hsafe hi hon (Nat.zero_le _) (hdepth 0)).trans hslot
    · rw [@bind_of_error _ _ _ _ _ _ _ (w.withFile h f plan') e]
      · exact hf.endsInStep hstep
      · rw [bind_of_ok (run_getFile h _), withFile_files, bind_of_error hrun]
        rfl
  · rw [if_neg hback] at hsafe
    rw [when_neg hback, bind_of_ok (run_pure _ _)]
    obtain ⟨i, hi⟩ := hf.extent
    exact seekLoop_safe hc hsafe hi hf (Nat.le_of_not_lt hback) (hdepth i)

/-- A safe `fffs_seek`. -/
theorem seek_safe {offset : Int} {whence : Whence} (hc : Chain w f.slot f.head es) (hf : OnChain w es f)
    (hstep : f.inStep) (hsafe : 0 ≤ seekTarget f offset whence → seekTarget f offset whence ≤ f.size →
      positionSafe w h es (seekTarget f offset whence).toNat f plan) :
    EndsInStep w h es f ((seek h offset whence).run (w.withFile h f plan)).2 := by
  rw [seek, bind_of_ok (run_getFile h _), withFile_files]
  split
  · exact hf.endsInStep hstep
  change EndsInStep w h es f ((if seekTarget f offset whence < 0 ∨ seekTarget f offset whence > f.size
    then throw .range
    else seekReadPosition h (seekTarget f offset whence).toNat >>= fun _ =>
      getFile h >>= fun file => pure file.pos : M Nat).run _).2
  split
  · exact hf.endsInStep hstep
  next hrange =>
  rw [not_or, not_lt, not_lt] at hrange
  have hends : EndsInStep w h es f
      ((seekReadPosition h (seekTarget f offset whence).toNat).run (w.withFile h f plan)).2 :=
    seekReadPosition_safe hc hf hstep (hsafe hrange.1 hrange.2)
  rcases hrun : (seekReadPosition h (seekTarget f offset whence).toNat).run (w.withFile h f plan) with ⟨res, u⟩
  rw [hrun] at hends
  cases res with
  | error e =>
    rw [bind_of_error hrun]
    exact hends
  | ok a =>
    rw [bind_of_ok hrun, bind_of_ok (run_getFile h u)]
    exact hends

theorem SeekSafe.of_withFile {k : File} {plan0 : List Fault}
    (hsafe : SeekSafe (w.withFile h k plan0) h es target f plan) : SeekSafe w h es target f plan := by
  induction hsafe with
  | within hin => exact .within hin
  | quiet hplan hle => exact .quiet hplan hle
  | stopped hstep hlookup =>
    rw [withFile_withFile] at hlookup
    exact .stopped hstep hlookup
  | onward hstep hlookup hsafe ih =>
    rw [withFile_withFile] at hlookup
    exact .onward hstep hlookup ih

theorem positionSafe_of_withFile {k : File} {plan0 : List Fault}
    (hsafe : positionSafe (w.withFile h k plan0) h es target f plan) : positionSafe w h es target f plan := by
  rw [positionSafe] at hsafe ⊢
  rw [withFile_withFile] at hsafe
  by_cases hback : target < f.currentFileOffset
  · rw [if_pos hback] at hsafe ⊢
    rcases hrun : (readFileRootMdPrefix f.head f.slot false).run (w.withFile h f plan) with ⟨_ | root, u⟩
    · trivial
    · rw [hrun] at hsafe
      exact hsafe.of_withFile
  · rw [if_neg hback] at hsafe ⊢
    exact hsafe.of_withFile

/-- A safe call keeps the handle in step with its file. -/
theorem EndsInStep.step {call : HandleCall} (hc : Chain w f.slot f.head es) (hopen : f.closed = false)
    (haccess : f.access = .rdonly) (hv : EndsInStep w h es f v) (hsafe : callSafe h es v call) :
    EndsInStep w h es f (callStep h v call) := by
  obtain ⟨g, plan0, rfl, hg, hstep, hid⟩ := hv
  have hslot : g.slot = f.slot := congrArg (fun k => k.2.2.1) hid
  have hhead : g.head = f.head := congrArg (fun k => k.2.2.2.1) hid
  have hcg : Chain w g.slot g.head es := by
    rw [hslot, hhead]
    exact hc
  cases call with
  | read size plan =>
    rw [callSafe, withFile_files] at hsafe
    have hclosed : ((w.withFile h g plan0).files h).closed = false := by
      rw [withFile_files]
      exact (congrArg Prod.fst hid).trans hopen
    have hrdonly : ((w.withFile h g plan0).files h).access = .rdonly := by
      rw [withFile_files]
      exact (congrArg (fun k => k.2.1) hid).trans haccess
    rw [callStep, read_run hclosed hrdonly, withFile_files, withFile_withFile]
    obtain ⟨k, plan', hrun, hk, hstep', hsame⟩ := readLoop_inStep hcg hg hstep hsafe
    exact ⟨k, plan', hrun, hk, hstep', hsame.trans hid⟩
  | seek offset whence plan =>
    rw [callSafe, withFile_files] at hsafe
    rw [callStep, withPlan_eq_withFile (h := h), withFile_withFile, withFile_files]
    exact (seek_safe hcg hg hstep fun h0 hle => positionSafe_of_withFile (hsafe h0 hle)).trans hid

end Calls

/-! ## Runs of one handle -/

section Runs

variable [Opts] {w w1 w2 : World} {h : Nat} {name : List Byte} {flags : OpenFlags} {es : List Extent}

omit [Opts] in
theorem extentAt_enlist {slot sector : Nat} : extentAt (w.enlist h) slot sector = extentAt w slot sector := by
  have hsame : SameData (w.withPlan []) ((w.enlist h).withPlan []) :=
    ⟨rfl, rfl, rfl, rfl, rfl, rfl, fun _ _ => rfl⟩
  rw [extentAt, readMdForSlot, (readMdForSlotBy_alike hsame).result]
  rfl

/-- A file that has just been opened is in step with its handle. -/
theorem openFile_inStep (hflags : flags.rdonly = true) (hopen : (openFile h name flags).run w1 = (.ok (), w2))
    (hc : Chain w2 (w2.files h).slot (w2.files h).head es) :
    OnChain w2 es (w2.files h) ∧ (w2.files h).inStep ∧ (w2.files h).closed = false ∧
      (w2.files h).access = .rdonly := by
  obtain ⟨slot, head, r, root, plan, hroot, rfl⟩ := openFile_rdonly hflags hopen
  have hfile : ((w1.withFile h (File.ofRoot slot head root r.spanLen) plan).enlist h).files h =
      File.ofRoot slot head root r.spanLen := if_pos rfl
  rw [hfile] at hc ⊢
  change Chain _ slot head es at hc
  obtain ⟨root', hhead, hfirst⟩ := hc.root
  obtain ⟨r', hread⟩ := headRootAt_ok hhead
  have hr : extentAt ((w1.withFile h (File.ofRoot slot head root r.spanLen) plan).enlist h) slot
    head = some r := by
    rw [extentAt_enlist, extentAt_withFile]
    exact hroot.extent
  have hsame : r' = r := by
    have heq := hread.extent
    rw [hr] at heq
    exact (Option.some.inj heq).symm
  subst hsame
  have hfit := hc.payload r' hr
  refine ⟨⟨⟨0, ?_⟩, Nat.zero_le _, ?_, ?_, ?_⟩, rfl, rfl, rfl⟩
  · rw [List.head?_eq_getElem?] at hfirst
    rw [hfirst, Extent.ofRoot, hread.dataOff, hread.dataLen, hread.spanLen, hread.next]
    simp only [File.extent, File.ofRoot, hroot.dataOff, hroot.dataLen, hroot.next]
    rfl
  · change root.payloadDataLen < 65536
    rw [hroot.dataLen]
    exact u16_lt _
  · exact (extentAt_bounds hr).2.2.1
  · have hoff : root.payloadDataOff = r'.dataOff + payloadOffset w1 head r' :=
      hroot.dataOff.trans (Nat.mod_eq_of_lt hfit)
    rw [CacheRight]
    change root.cached = Nor.read w1.dev.mem (head * w1.fs.sectorSize + root.payloadDataOff + 0)
      root.cached.length
    rw [hoff, hroot.cached, if_pos rfl, Nor.length_read, Nat.add_zero, Nat.add_assoc]

/-- In a run of safe calls of a read handle, its cursor stands at `pos` after every call, its cache is right,
and every `fffs_read` that returns delivers the bytes at `pos`. -/
theorem handle_in_step (hflags : flags.rdonly = true) (hopen : (openFile h name flags).run w1 = (.ok (), w2))
    (hc : Chain w2 (w2.files h).slot (w2.files h).head es)
    (hcalls : Steps (callStep h) (callSafe h es) w2 w) :
    (w.files h).pos = (w.files h).currentFileOffset + (w.files h).currentDataPos ∧ CacheRight w (w.files h) ∧
      ∀ size plan bs v, (read h size).run (w.withPlan plan) = (.ok bs, v) →
        bs = ((content w2 es).drop (w.files h).pos).take (wanted (w.files h) size) := by
  obtain ⟨hon, hstep, hclosed, haccess⟩ := openFile_inStep hflags hopen hc
  have hstart : EndsInStep w2 h es (w2.files h) w2 :=
    ⟨w2.files h, w2.dev.plan, withPlan_eq_withFile, hon, hstep, rfl⟩
  have hw : EndsInStep w2 h es (w2.files h) w := hcalls.invariant
    (I := fun u => EndsInStep w2 h es (w2.files h) u)
    (fun _ call hu hsafe => hu.step hc hclosed haccess hsafe) hstart
  obtain ⟨g, plan0, rfl, hg, hin, hid⟩ := hw
  rw [withFile_files]
  refine ⟨hin, hg.cache, fun size plan bs v hrun => ?_⟩
  have hopen' : ((w2.withFile h g plan0).files h).closed = false := by
    rw [withFile_files]
    exact (congrArg Prod.fst hid).trans hclosed
  have haccess' : ((w2.withFile h g plan0).files h).access = .rdonly := by
    rw [withFile_files]
    exact (congrArg (fun k => k.2.1) hid).trans haccess
  have hcg : Chain w2 g.slot (w2.files h).head es := by
    rw [show g.slot = (w2.files h).slot from congrArg (fun k => k.2.2.1) hid]
    exact hc
  rw [read_run hopen' haccess', withFile_files, withFile_withFile] at hrun
  rw [hin]
  exact readLoop_delivers hcg hg hrun

omit [Opts] in
/-- Six sectors of 256 bytes, two of them for the index, with a file `a` of six bytes: two in sector 2, two in
sector 3 and two in sector 4. -/
def threeExtents : World :=
  let slot := normalizeSlotBase (hash16 [0x61#8])
  let root := encodeExtentMetadata slot mdTypeFileRootV1 0 5 1 6 3 true ++ encodeSectorFooter 1 true
  let second := encodeExtentMetadata slot mdTypeFileContV1 0 2 1 2 4 true ++ encodeSectorFooter 1 true
  let third := encodeExtentMetadata slot mdTypeFileContV1 0 2 1 4 0 true ++ encodeSectorFooter 1 true
  let index := Nor.program (formattedChip 6 2).dev.mem 8 (storeLe16 slot ++ storeLe16 2)
  let data := Nor.program (Nor.program (Nor.program index 512 [1#8, 0x61#8, 0#8, 10#8, 11#8])
    768 [12#8, 13#8]) 1024 [14#8, 15#8]
  { formattedChip 6 2 with
    dev := { mem := Nor.program (Nor.program (Nor.program data 742 root) 998 second) 1254 third
             programGranule := 1
             plan := [] } }

omit [Opts] in
/-- The extents of the file of `threeExtents`. -/
def threeChain : List Extent := [⟨2, 3, 2, 1, 3, 0⟩, ⟨3, 0, 2, 1, 4, 2⟩, ⟨4, 0, 2, 1, 0, 4⟩]

omit [Opts] in
/-- `threeExtents` after a mount. -/
def mountedThree : World := ((@mount defaultOpts smallMount).run threeExtents).2

omit [Opts] in
/-- Its file opened to read. -/
def openedThree : World := ((@openFile defaultOpts 0 [0x61#8] readFlags).run mountedThree).2

omit [Opts] in
theorem openedThree_run : (@openFile defaultOpts 0 [0x61#8] readFlags).run mountedThree = (.ok (), openedThree) :=
  run_eq_of_isOk (by decide +kernel)

attribute [irreducible] openedThree

omit [Opts] in
theorem openedThree_chain : Chain openedThree (openedThree.files 0).slot
  (openedThree.files 0).head threeChain := by
  have hroot : (headRootAt openedThree (openedThree.files 0).slot (openedThree.files 0).head).map
      (Extent.ofRoot (openedThree.files 0).head) = threeChain.head? := by decide +kernel
  have hpayload : (extentAt openedThree (openedThree.files 0).slot (openedThree.files 0).head).map (fun r =>
      decide (r.dataOff + payloadOffset openedThree (openedThree.files 0).head r < 65536)) = some true := by
    decide +kernel
  refine ⟨?_, ?_, ?_, ?_, by decide, by decide, fun r hr => ?_⟩
  · cases hfound : headRootAt openedThree (openedThree.files 0).slot (openedThree.files 0).head with
    | none =>
      rw [hfound] at hroot
      cases hroot
    | some root =>
      rw [hfound] at hroot
      exact ⟨root, rfl, hroot.symm⟩
  · refine .cons_cons ⟨by decide, by decide +kernel, by decide +kernel⟩ (.cons_cons ⟨by decide, by decide +kernel,
      by decide +kernel⟩ (.singleton _))
  · intro e he
    cases he
    exact .inl rfl
  · intro i g e he hpos hspan
    have hone : ∀ e ∈ threeChain, e.span ≤ 1 := by decide
    have hle := hone e (List.mem_of_getElem? he)
    omega
  · rw [hr] at hpayload
    exact of_decide_eq_true (Option.some.inj hpayload)

omit [Opts] in
/-- A seek that works, and one whose first lookup fails: the handle is still in step. -/
theorem handle_in_step_three :
    let w := callStep 0 (callStep 0 openedThree (.seek 5 .set [])) (.seek 3 .set [.off])
    (w.files 0).pos = (w.files 0).currentFileOffset + (w.files 0).currentDataPos ∧ CacheRight w (w.files 0) ∧
      ∀ size plan bs v, (read 0 size).run (w.withPlan plan) = (.ok bs, v) →
        bs = ((content openedThree threeChain).drop (w.files 0).pos).take (wanted (w.files 0) size) := by
  intro w
  have hstart : ¬ 5 < (openedThree.files 0).currentFileOffset ∧ 5 ≤ (content openedThree threeChain).length := by
    decide +kernel
  have hend : 3 < ((callStep 0 openedThree (.seek 5 .set [])).files 0).currentFileOffset := by decide +kernel
  have hfails : ((readFileRootMdPrefix ((callStep 0 openedThree (.seek 5 .set [])).files 0).head
      ((callStep 0 openedThree (.seek 5 .set [])).files 0).slot false).run
        ((callStep 0 openedThree (.seek 5 .set [])).withFile 0
          ((callStep 0 openedThree (.seek 5 .set [])).files 0) [.off])).1.isOk = false := by decide +kernel
  have hfirst : callSafe 0 threeChain openedThree (.seek 5 .set []) := by
    intro _ _
    change positionSafe openedThree 0 threeChain 5 (openedThree.files 0) []
    rw [positionSafe, if_neg hstart.1]
    exact .quiet noFault_nil hstart.2
  have hsecond : callSafe 0 threeChain (callStep 0 openedThree (.seek 5 .set [])) (.seek 3 .set [.off]) := by
    intro _ _
    generalize callStep 0 openedThree (.seek 5 .set []) = v at hend hfails ⊢
    change positionSafe v 0 threeChain 3 (v.files 0) [.off]
    rw [positionSafe, if_pos hend]
    rcases hrun : (readFileRootMdPrefix (v.files 0).head (v.files 0).slot false).run
        (v.withFile 0 (v.files 0) [.off]) with ⟨_ | root, u⟩
    · trivial
    · rw [hrun] at hfails
      cases hfails
  exact @handle_in_step defaultOpts w mountedThree openedThree 0 [0x61#8] readFlags threeChain rfl openedThree_run
    openedThree_chain (.tail _ (.tail _ .refl hfirst) hsecond)

omit [Opts] in
/-- The file of `threeExtents` holds the bytes 10 to 15.  A seek from 5 to 3 has gone back to the root when a read
fails: `pos` is 5, and the next read delivers the byte at 0.  A read at 4 fails to fill the cache that holds the
byte at 5: the next read at 5 delivers what the backend has left in the cache. -/
theorem handle_out_of_step :
    let atEnd := callStep 0 openedThree (.seek 5 .set [])
    let rewound := callStep 0 atEnd (.seek 3 .set [.pass, .pass, .fail (fun _ => 0#8) false])
    let cached := callStep 0 (callStep 0 atEnd (.read 1 [])) (.seek 4 .set [])
    let spoiled := callStep 0 (callStep 0 cached (.read 1 [.fail (fun _ => 0xEE#8) false])) (.seek 5 .set [])
    content openedThree threeChain = [10#8, 11#8, 12#8, 13#8, 14#8, 15#8] ∧
      (rewound.files 0).pos = 5 ∧ (rewound.files 0).currentFileOffset + (rewound.files 0).currentDataPos = 0 ∧
      ((read 0 1).run (rewound.withPlan [])).1 = .ok [10#8] ∧
      (spoiled.files 0).pos = 5 ∧ (spoiled.files 0).cache = [0xEE#8] ∧
      ((read 0 1).run (spoiled.withPlan [])).1 = .ok [0xEE#8] := by
  decide +kernel

end Runs

end Fastffs
