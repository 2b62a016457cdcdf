import Mathlib.Tactic

/-!
# Values in slots

A table of slots holds values that have names, and each name has a window: the slots in which
it may stand, in the order in which they are tried.  A name is looked up by trying the slots of
its window.  A new name takes the first free slot of its window.

`get` is the map from names to values that the table stands for.  Each operation comes with
what it does to that map.
-/

/-- A table of slots.  A name stands in one slot at most, and that is one of its window. -/
structure Slots (N K V : Type*) (name : V → N) (window : N → List K) where
  slot : K → Option V
  placed : ∀ {k v}, slot k = some v → k ∈ window (name v)
  unique : ∀ {k j v u}, slot k = some v → slot j = some u → name v = name u → k = j

namespace Slots

variable {N K V : Type*} {name : V → N} {window : N → List K}

/-- The table without values. -/
def empty : Slots N K V name window where
  slot _ := none
  placed h := by cases h
  unique h := by cases h

variable [DecidableEq N]

/-- The slot holds a value of the name. -/
def holds (d : Slots N K V name window) (x : N) (k : K) : Bool := (d.slot k).any fun v => decide (name v = x)

/-- The slot of a name. -/
def find (d : Slots N K V name window) (x : N) : Option K := (window x).find? (d.holds x)

/-- The value of a name. -/
def get (d : Slots N K V name window) (x : N) : Option V := (d.find x).bind d.slot

/-- The slot that a new name takes. -/
def free (d : Slots N K V name window) (x : N) : Option K := (window x).find? fun k => (d.slot k).isNone

variable {d : Slots N K V name window} {x y : N} {k j : K} {v : V}

theorem holds_iff : d.holds x k = true ↔ ∃ v, d.slot k = some v ∧ name v = x := by
  rw [holds, Option.any_eq_true]
  simp only [decide_eq_true_eq]

theorem find_eq_some : d.find x = some k ↔ ∃ v, d.slot k = some v ∧ name v = x := by
  constructor
  · intro hfind
    exact holds_iff.mp (List.find?_some hfind)
  · rintro ⟨v, hk, rfl⟩
    have hheld : ∃ j ∈ window (name v), d.holds (name v) j = true :=
      ⟨k, d.placed hk, holds_iff.mpr ⟨v, hk, rfl⟩⟩
    obtain ⟨j, hj⟩ := Option.isSome_iff_exists.mp (List.find?_isSome.mpr hheld)
    obtain ⟨u, hu, hname⟩ := holds_iff.mp (List.find?_some hj)
    rw [find, hj, d.unique hu hk hname]

theorem find_eq_none : d.find x = none ↔ ∀ k v, d.slot k = some v → name v ≠ x := by
  constructor
  · intro hnone k v hk hname
    rw [find_eq_some.mpr ⟨v, hk, hname⟩] at hnone
    cases hnone
  · intro hno
    refine Option.eq_none_iff_forall_ne_some.mpr fun k hk => ?_
    obtain ⟨v, hv, hname⟩ := find_eq_some.mp hk
    exact hno k v hv hname

theorem get_eq_some : d.get x = some v ↔ name v = x ∧ ∃ k, d.slot k = some v := by
  rw [get, Option.bind_eq_some_iff]
  constructor
  · rintro ⟨k, hfind, hk⟩
    obtain ⟨u, hu, hname⟩ := find_eq_some.mp hfind
    rw [hk] at hu
    cases hu
    exact ⟨hname, k, hk⟩
  · rintro ⟨hname, k, hk⟩
    exact ⟨k, find_eq_some.mpr ⟨v, hk, hname⟩, hk⟩

theorem get_eq_none : d.get x = none ↔ d.find x = none := by
  rw [find_eq_none, Option.eq_none_iff_forall_ne_some]
  simp only [ne_eq, get_eq_some]
  exact ⟨fun h k v hk hname => h v ⟨hname, k, hk⟩, fun h v hv => hv.2.elim fun k hk => h k v hk hv.1⟩

/-- The slot in which a value of the name is put: the one of the name, or a free one. -/
def Target (d : Slots N K V name window) (x : N) (k : K) : Prop :=
  d.find x = some k ∨ d.find x = none ∧ d.free x = some k

theorem Target.mem (h : d.Target x k) : k ∈ window x := by
  rcases h with hfind | ⟨-, hfree⟩
  · exact List.mem_of_find?_eq_some hfind
  · exact List.mem_of_find?_eq_some hfree

/-- What stood in the slot has the name. -/
theorem Target.name_eq (h : d.Target x k) (hv : d.slot k = some v) : name v = x := by
  rcases h with hfind | ⟨-, hfree⟩
  · obtain ⟨u, hu, hname⟩ := find_eq_some.mp hfind
    rw [hv] at hu
    cases hu
    exact hname
  · have hnone := List.find?_some hfree
    rw [hv] at hnone
    cases hnone

/-- The name stands in no other slot. -/
theorem Target.eq_of_name (h : d.Target x k) (hv : d.slot j = some v) (hname : name v = x) : j = k := by
  have hj := find_eq_some.mpr ⟨v, hv, hname⟩
  rcases h with hfind | ⟨hnone, -⟩
  · exact Option.some.inj (hj.symm.trans hfind)
  · rw [hj] at hnone
    cases hnone

variable [DecidableEq K]

/-- Put a value into its slot. -/
def put (d : Slots N K V name window) (k : K) (v : V) (h : d.Target (name v) k) : Slots N K V name window where
  slot := Function.update d.slot k (some v)
  placed {j u} hu := by
    rw [Function.update_apply] at hu
    split at hu
    · next heq =>
      cases hu
      exact heq ▸ h.mem
    · exact d.placed hu
  unique {i j a b} ha hb hname := by
    rw [Function.update_apply] at ha hb
    split at ha
    · next hi =>
      cases ha
      split at hb
      · next hj => exact hi.trans hj.symm
      · exact hi.trans (h.eq_of_name hb hname.symm).symm
    · split at hb
      · next hj =>
        cases hb
        exact (h.eq_of_name ha hname).trans hj.symm
      · exact d.unique ha hb hname

/-- Take the value out of a slot. -/
def remove (d : Slots N K V name window) (k : K) : Slots N K V name window where
  slot := Function.update d.slot k none
  placed {j u} hu := by
    rw [Function.update_apply] at hu
    split at hu
    · cases hu
    · exact d.placed hu
  unique {i j a b} ha hb hname := by
    rw [Function.update_apply] at ha hb
    split at ha
    · cases ha
    · split at hb
      · cases hb
      · exact d.unique ha hb hname

theorem get_put (h : d.Target (name v) k) : (d.put k v h).get = Function.update d.get (name v) (some v) := by
  funext y
  refine Option.ext fun u => ?_
  have hslot : ∀ j, (d.put k v h).slot j = if j = k then some v else d.slot j := fun j => Function.update_apply ..
  rw [get_eq_some, Function.update_apply]
  simp only [hslot]
  split
  · next hy =>
    rw [hy, Option.some.injEq]
    constructor
    · rintro ⟨hname, j, hj⟩
      split at hj
      · exact Option.some.inj hj
      · next hne => exact absurd (h.eq_of_name hj hname) hne
    · rintro rfl
      exact ⟨rfl, k, if_pos rfl⟩
  · next hy =>
    rw [get_eq_some]
    refine and_congr_right fun hname => exists_congr fun j => ?_
    split
    · next hj =>
      rw [hj, Option.some.injEq]
      exact ⟨fun heq => absurd (heq ▸ hname).symm hy, fun hu => absurd (hname.symm.trans (h.name_eq hu)) hy⟩
    · exact Iff.rfl

theorem get_remove (h : d.find x = some k) : (d.remove k).get = Function.update d.get x none := by
  funext y
  refine Option.ext fun u => ?_
  have hslot : ∀ j, (d.remove k).slot j = if j = k then none else d.slot j := fun j => Function.update_apply ..
  obtain ⟨v, hv, hname⟩ := find_eq_some.mp h
  rw [get_eq_some, Function.update_apply]
  simp only [hslot]
  split
  · next hy =>
    refine iff_of_false ?_ fun hno => by cases hno
    rintro ⟨hu, j, hj⟩
    split at hj
    · cases hj
    · next hne => exact hne (d.unique hj hv (hu.trans (hy.trans hname.symm)))
  · next hy =>
    rw [get_eq_some]
    refine and_congr_right fun hu => exists_congr fun j => ?_
    split
    · next hj =>
      rw [hj, hv]
      refine iff_of_false (fun hno => by cases hno) fun heq => ?_
      cases heq
      exact hy (hu.symm.trans hname)
    · exact Iff.rfl

end Slots
