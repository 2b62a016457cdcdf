import Mathlib.Tactic

/-!
# Shelves

A store puts its items on shelves, each one at the end of a shelf.  An item belongs to a
key, and `head` says on which shelf the current item of a key stands.  To free a shelf, the
live items on it are copied to others, so a key can have more than one live item for a while.

`get` is the map that the shelves stand for.  `Tidy` says that each live item, the current
one or a copy of it, has the value of its key.  So whichever of them is copied next, and
whichever is lost that is not the current one, the map stays.  Each operation comes with what
it does to the two.
-/

/-- Items have a key and a value, and a live one can be killed. -/
class Item (E : Type*) (K V : outParam Type*) where
  key : E → K
  val : E → V
  live : E → Bool
  kill : E → E
  key_kill : ∀ e, key (kill e) = key e
  live_kill : ∀ e, live (kill e) = false

namespace Item

variable {E K V : Type*} [Item E K V]

/-- No two live items have the same key. -/
def Single (es : List E) : Prop := es.Pairwise fun e e' => live e = true → live e' = true → key e ≠ key e'

/-- No live item of the key is in the list. -/
def Lacks (k : K) (es : List E) : Prop := ∀ e ∈ es, live e = true → key e ≠ k

variable [DecidableEq K]

/-- The item is a live one of the key. -/
def liveFor (k : K) (e : E) : Bool := live e && decide (key e = k)

/-- Kill the first live item of the key. -/
def killFirst (k : K) : List E → List E
  | [] => []
  | e :: es => if liveFor k e then kill e :: es else e :: killFirst k es

variable {k j : K} {e : E} {es : List E}

theorem liveFor_iff : liveFor k e = true ↔ live e = true ∧ key e = k := by
  rw [liveFor, Bool.and_eq_true, decide_eq_true_eq]

theorem not_liveFor_kill : ¬ liveFor j (kill e) = true := by
  rw [liveFor_iff, live_kill]
  exact fun h => by cases h.1

theorem mem_killFirst (h : e ∈ killFirst k es) : e ∈ es ∨ ∃ e' ∈ es, liveFor k e' = true ∧ e = kill e' := by
  induction es with
  | nil => exact .inl h
  | cons a es ih =>
    rw [killFirst] at h
    split at h
    · next hfor =>
      rcases List.mem_cons.mp h with rfl | hmem
      · exact .inr ⟨a, List.mem_cons_self, hfor, rfl⟩
      · exact .inl (List.mem_cons_of_mem a hmem)
    · rcases List.mem_cons.mp h with rfl | hmem
      · exact .inl List.mem_cons_self
      · rcases ih hmem with hold | ⟨e', hmem', hkill⟩
        · exact .inl (List.mem_cons_of_mem a hold)
        · exact .inr ⟨e', List.mem_cons_of_mem a hmem', hkill⟩

/-- A live item that is left is one of before. -/
theorem mem_of_live_killFirst (h : e ∈ killFirst k es) (hlive : live e = true) : e ∈ es := by
  rcases mem_killFirst h with hold | ⟨e', -, -, rfl⟩
  · exact hold
  · rw [live_kill] at hlive
    cases hlive

/-- What holds between live items holds after one has been killed. -/
theorem Single.killFirst (h : Single es) : Single (killFirst k es) := by
  induction es with
  | nil => exact h
  | cons a es ih =>
    rw [Item.killFirst]
    obtain ⟨ha, hes⟩ := List.pairwise_cons.mp h
    split
    · refine List.pairwise_cons.mpr ⟨fun e _ hlive => ?_, hes⟩
      rw [live_kill] at hlive
      cases hlive
    · exact List.pairwise_cons.mpr ⟨fun e he hlive hlive' =>
        ha e (mem_of_live_killFirst he hlive') hlive hlive', ih hes⟩

/-- Another key finds the same item. -/
theorem find_killFirst_of_ne (hne : j ≠ k) : (killFirst k es).find? (liveFor j) = es.find? (liveFor j) := by
  induction es with
  | nil => rfl
  | cons a es ih =>
    rw [killFirst]
    split
    · next hfor =>
      have hother : ¬ liveFor j a = true := fun hj =>
        hne ((liveFor_iff.mp hj).2.symm.trans (liveFor_iff.mp hfor).2)
      rw [List.find?_cons_of_neg not_liveFor_kill, List.find?_cons_of_neg hother]
    · rw [List.find?_cons, List.find?_cons, ih]

/-- No live item of the key is left. -/
theorem Single.find_killFirst (h : Single es) : (Item.killFirst k es).find? (liveFor k) = none := by
  induction es with
  | nil => rfl
  | cons a es ih =>
    rw [Item.killFirst]
    obtain ⟨ha, hes⟩ := List.pairwise_cons.mp h
    split
    · next hfor =>
      obtain ⟨hlive, hkey⟩ := liveFor_iff.mp hfor
      rw [List.find?_cons_of_neg not_liveFor_kill, List.find?_eq_none]
      intro e he hfore
      obtain ⟨hlive', hkey'⟩ := liveFor_iff.mp hfore
      exact ha e he hlive hlive' (hkey.trans hkey'.symm)
    · next hnot =>
      rw [List.find?_cons_of_neg hnot]
      exact ih hes

theorem killFirst_append_cons {front back : List E} (hnone : Lacks (key e) front) (hlive : live e = true) :
    killFirst (key e) (front ++ e :: back) = front ++ kill e :: back := by
  induction front with
  | nil => exact if_pos (liveFor_iff.mpr ⟨hlive, rfl⟩)
  | cons a front ih =>
    obtain ⟨ha, hfront⟩ := List.forall_mem_cons.mp hnone
    rw [List.cons_append, killFirst, if_neg fun hfor => ha (liveFor_iff.mp hfor).1 (liveFor_iff.mp hfor).2, ih hfront]
    rfl

theorem find_append_of_ne (hne : key e ≠ k) :
    (es ++ [e]).find? (liveFor k) = es.find? (liveFor k) := by
  have hnot : ¬ liveFor k e = true := fun hfor => hne (liveFor_iff.mp hfor).2
  rw [List.find?_append, List.find?_cons_of_neg hnot, List.find?_nil, Option.or_none]

theorem lacks_iff : Lacks k es ↔ es.find? (liveFor k) = none := by
  rw [List.find?_eq_none]
  refine forall₂_congr fun e _ => ?_
  rw [liveFor_iff, not_and]

theorem find_append_self (hnone : Lacks (key e) es) (hlive : live e = true) :
    (es ++ [e]).find? (liveFor (key e)) = some e := by
  rw [List.find?_append, lacks_iff.mp hnone, Option.none_or,
    List.find?_cons_of_pos (liveFor_iff.mpr ⟨hlive, rfl⟩)]

omit [DecidableEq K] in
theorem Single.append (h : Single es) (hnone : Lacks (key e) es) : Single (es ++ [e]) := by
  rw [Single, List.pairwise_append]
  refine ⟨h, List.pairwise_singleton _ _, fun a ha b hb hlive _ => ?_⟩
  rw [List.mem_singleton.mp hb]
  exact hnone a ha hlive

end Item

/-- Shelves with their items, and where the current item of a key stands. -/
structure Shelves (P K E : Type*) where
  head : K → Option P
  items : P → List E

namespace Shelves

open Item

variable {P K V E : Type*} [Item E K V] [DecidableEq K]

/-- The value of a key. -/
def get (st : Shelves P K E) (k : K) : Option V :=
  (st.head k).bind fun p => ((st.items p).find? (liveFor k)).map val

/-- The current item of a key. -/
def current (st : Shelves P K E) (k : K) : Option E :=
  (st.head k).bind fun p => (st.items p).find? (liveFor k)

theorem get_eq (st : Shelves P K E) (k : K) : st.get k = (st.current k).map val := by
  rw [get, current, Option.map_bind]
  rfl

/-- A live item has the value of its key, and a key has its current item. -/
structure Tidy (st : Shelves P K E) : Prop where
  single : ∀ p, Single (st.items p)
  held : ∀ k p, st.head k = some p → ∃ e ∈ st.items p, liveFor k e = true
  faithful : ∀ p, ∀ e ∈ st.items p, live e = true → st.get (key e) = some (val e)

/-- The live items of a key are all on the shelf. -/
def OnlyOn (st : Shelves P K E) (k : K) (p : P) : Prop := ∀ q, ∀ e ∈ st.items q, liveFor k e = true → q = p

/-- There is no live item but the current ones. -/
def Exact (st : Shelves P K E) : Prop := ∀ p, ∀ e ∈ st.items p, live e = true → st.head (key e) = some p

/-- A key has no current item any more. -/
def forget (st : Shelves P K E) (k : K) : Shelves P K E where
  head := Function.update st.head k none
  items := st.items

variable {st : Shelves P K E} {p q : P} {k j : K} {e : E}

/-- The current item of a key is found on its shelf. -/
theorem Tidy.find (h : Tidy st) (hp : st.head k = some p) :
    ∃ e, (st.items p).find? (liveFor k) = some e ∧ st.get k = some (val e) := by
  obtain ⟨e, he, hfor⟩ := h.held k p hp
  obtain ⟨e', hfind⟩ := Option.isSome_iff_exists.mp (List.find?_isSome.mpr ⟨e, he, hfor⟩)
  refine ⟨e', hfind, ?_⟩
  rw [get, hp, Option.bind_some, hfind]
  rfl

theorem Tidy.get_eq_none (h : Tidy st) : st.get k = none ↔ st.head k = none := by
  constructor
  · intro hnone
    cases hp : st.head k with
    | none => rfl
    | some p =>
      obtain ⟨e, -, hget⟩ := h.find hp
      rw [hget] at hnone
      cases hnone
  · intro hnone
    rw [get, hnone]
    rfl

/-- The key of a live item has a current item. -/
theorem Tidy.head_of_live (h : Tidy st) (he : e ∈ st.items p) (hlive : live e = true) :
    ∃ q, st.head (key e) = some q := by
  refine Option.ne_none_iff_exists'.mp fun hnone => ?_
  have hget := h.faithful p e he hlive
  rw [h.get_eq_none.mpr hnone] at hget
  cases hget

theorem Exact.onlyOn (h : Exact st) (hp : st.head k = some p) : st.OnlyOn k p := by
  intro q e he hfor
  obtain ⟨hlive, rfl⟩ := liveFor_iff.mp hfor
  exact Option.some.inj ((h q e he hlive).symm.trans hp)

variable [DecidableEq P]

/-- Put a new current item on a shelf. -/
def add (st : Shelves P K E) (p : P) (e : E) : Shelves P K E where
  head := Function.update st.head (key e) (some p)
  items := Function.update st.items p (st.items p ++ [e])

/-- Kill the live item of a key on a shelf. -/
def retire (st : Shelves P K E) (p : P) (k : K) : Shelves P K E where
  head := st.head
  items := Function.update st.items p (killFirst k (st.items p))

/-- Take everything from a shelf. -/
def clear (st : Shelves P K E) (p : P) : Shelves P K E where
  head := st.head
  items := Function.update st.items p []

theorem add_items : (st.add p e).items q = if q = p then st.items p ++ [e] else st.items q :=
  Function.update_apply ..

theorem retire_items : (st.retire p k).items q = if q = p then killFirst k (st.items p) else st.items q :=
  Function.update_apply ..

omit [DecidableEq K] in
theorem clear_items : (st.clear p).items q = if q = p then [] else st.items q := Function.update_apply ..

/-- A live item that is left is one of before. -/
theorem mem_of_retire (he : e ∈ (st.retire p k).items q) (hlive : live e = true) : e ∈ st.items q := by
  rw [retire_items] at he
  split at he
  · next heq => exact heq ▸ mem_of_live_killFirst he hlive
  · exact he

omit [DecidableEq K] in
theorem mem_of_clear (he : e ∈ (st.clear p).items q) : q ≠ p ∧ e ∈ st.items q := by
  rw [clear_items] at he
  split at he
  · cases he
  · next hne => exact ⟨hne, he⟩

theorem single_add (h : ∀ q, Single (st.items q)) (hnew : Lacks (key e) (st.items p)) (q : P) :
    Single ((st.add p e).items q) := by
  rw [add_items]
  split
  · exact (h p).append hnew
  · exact h q

theorem single_retire (h : ∀ q, Single (st.items q)) (q : P) : Single ((st.retire p k).items q) := by
  rw [retire_items]
  split
  · exact (h p).killFirst
  · exact h q

/-! ## What the operations do to the map -/

theorem get_add (hlive : live e = true) (hnew : Lacks (key e) (st.items p)) :
    (st.add p e).get = Function.update st.get (key e) (some (val e)) := by
  funext k
  rw [Function.update_apply]
  change (Function.update st.head (key e) (some p) k).bind
    (fun q => (((st.add p e).items q).find? (liveFor k)).map val) = _
  by_cases hk : k = key e
  · subst hk
    rw [Function.update_self, Option.bind_some, add_items, if_pos rfl, find_append_self hnew hlive, if_pos rfl]
    rfl
  · rw [Function.update_of_ne hk, if_neg hk, get]
    refine congrArg _ (funext fun q => ?_)
    rw [add_items]
    split
    · next heq => rw [find_append_of_ne fun h => hk h.symm, heq]
    · rfl

/-- A copy of the current item takes its place. -/
theorem get_copy (hlive : live e = true) (hnew : Lacks (key e) (st.items p))
    (hval : st.get (key e) = some (val e)) : (st.add p e).get = st.get := by
  rw [get_add hlive hnew, ← hval, Function.update_eq_self]

/-- Another key keeps its value. -/
theorem get_retire_of_ne (hne : j ≠ k) : (st.retire p k).get j = st.get j := by
  refine congrArg (st.head j).bind (funext fun q => ?_)
  rw [retire_items]
  split
  · next heq => rw [find_killFirst_of_ne hne, heq]
  · rfl

theorem get_retire (hp : st.head k ≠ some p) : (st.retire p k).get = st.get := by
  funext j
  by_cases hjk : j = k
  · subst hjk
    change (st.head j).bind _ = (st.head j).bind _
    cases hq : st.head j with
    | none => rfl
    | some q =>
      rw [Option.bind_some, Option.bind_some, retire_items, if_neg fun (heq : q = p) => hp (heq ▸ hq)]
  · exact get_retire_of_ne hjk

theorem get_clear (hp : ∀ k, st.head k ≠ some p) : (st.clear p).get = st.get := by
  funext j
  change (st.head j).bind _ = (st.head j).bind _
  cases hq : st.head j with
  | none => rfl
  | some q =>
    rw [Option.bind_some, Option.bind_some, clear_items, if_neg fun (heq : q = p) => hp j (heq ▸ hq)]

omit [DecidableEq P] in
theorem get_forget : (st.forget k).get = Function.update st.get k none := by
  funext j
  rw [Function.update_apply]
  change (Function.update st.head k none j).bind _ = _
  rw [Function.update_apply]
  split
  · rfl
  · rfl

/-- A copy on another shelf that does not become the current item. -/
def stray (st : Shelves P K E) (p : P) (e : E) : Shelves P K E where
  head := st.head
  items := Function.update st.items p (st.items p ++ [e])

theorem Tidy.get_stray (h : Tidy st) : (st.stray p e).get = st.get := by
  funext j
  change (st.head j).bind (fun q =>
    ((Function.update st.items p (st.items p ++ [e]) q).find? (liveFor j)).map val) = (st.head j).bind _
  cases hq : st.head j with
  | none => rfl
  | some q =>
    obtain ⟨a, hfind, -⟩ := h.find hq
    rw [Option.bind_some, Option.bind_some, Function.update_apply]
    split
    · next heq => rw [List.find?_append, ← heq, hfind, Option.some_or]
    · rfl

/-! ## Operations that keep the map -/

theorem Tidy.stray (h : Tidy st) (hnew : Lacks (key e) (st.items p)) (hval : st.get (key e) = some (val e)) :
    Tidy (st.stray p e) := by
  have hitems : ∀ q, (st.stray p e).items q = if q = p then st.items p ++ [e] else st.items q :=
    fun q => Function.update_apply ..
  refine ⟨fun q => ?_, fun k q hq => ?_, fun q a ha halive => ?_⟩
  · rw [hitems]
    split
    · exact (h.single p).append hnew
    · exact h.single q
  · obtain ⟨a, ha, hfor⟩ := h.held k q hq
    refine ⟨a, ?_, hfor⟩
    rw [hitems]
    split
    · next heq => exact List.mem_append_left _ (heq ▸ ha)
    · exact ha
  · rw [h.get_stray]
    rw [hitems] at ha
    split at ha
    · rcases List.mem_append.mp ha with hold | hone
      · exact h.faithful p a hold halive
      · rw [List.mem_singleton.mp hone]
        exact hval
    · exact h.faithful q a ha halive

theorem Tidy.copy (h : Tidy st) (hlive : live e = true) (hnew : Lacks (key e) (st.items p))
    (hval : st.get (key e) = some (val e)) : Tidy (st.add p e) := by
  refine ⟨single_add h.single hnew, fun k q hq => ?_, fun q a ha halive => ?_⟩
  · change Function.update st.head (key e) (some p) k = some q at hq
    rw [Function.update_apply] at hq
    split at hq
    · next hk =>
      cases hq
      exact ⟨e, by simp [add_items], liveFor_iff.mpr ⟨hlive, hk.symm⟩⟩
    · obtain ⟨a, ha, hfor⟩ := h.held k q hq
      refine ⟨a, ?_, hfor⟩
      rw [add_items]
      split
      · next heq => exact List.mem_append_left _ (heq ▸ ha)
      · exact ha
  · rw [get_copy hlive hnew hval]
    rw [add_items] at ha
    split at ha
    · next heq =>
      rcases List.mem_append.mp ha with hold | hone
      · exact h.faithful p a hold halive
      · rw [List.mem_singleton.mp hone]
        exact hval
    · exact h.faithful q a ha halive

theorem Tidy.retire (h : Tidy st) (hp : st.head k ≠ some p) : Tidy (st.retire p k) := by
  refine ⟨single_retire h.single, fun j q hq => ?_, fun q a ha halive => ?_⟩
  · obtain ⟨e, he, hfor⟩ := h.held j q hq
    rw [retire_items]
    split
    · next heq =>
      subst heq
      have hne : j ≠ k := fun hjk => hp (hjk ▸ hq)
      refine List.find?_isSome.mp ?_
      rw [find_killFirst_of_ne hne, List.find?_isSome]
      exact ⟨e, he, hfor⟩
    · exact ⟨e, he, hfor⟩
  · rw [get_retire hp]
    exact h.faithful q a (mem_of_retire ha halive) halive

theorem Tidy.clear (h : Tidy st) (hp : ∀ k, st.head k ≠ some p) : Tidy (st.clear p) := by
  refine ⟨fun q => ?_, fun j q hq => ?_, fun q a ha halive => ?_⟩
  · rw [clear_items]
    split
    · exact List.Pairwise.nil
    · exact h.single q
  · rw [clear_items, if_neg fun (heq : q = p) => hp j (heq ▸ hq)]
    exact h.held j q hq
  · rw [get_clear hp]
    exact h.faithful q a (mem_of_clear ha).2 halive

theorem Exact.retire (h : Exact st) : Exact (st.retire p k) := fun q e he hlive => h q e (mem_of_retire he hlive) hlive

omit [DecidableEq K] in
theorem Exact.clear (h : Exact st) : Exact (st.clear p) := fun q e he hlive => h q e (mem_of_clear he).2 hlive

/-! ## A new value -/

/-- The shelves are tidy but for one key, which has no live item. -/
structure TidyBut (k : K) (st : Shelves P K E) : Prop where
  single : ∀ p, Single (st.items p)
  held : ∀ j p, j ≠ k → st.head j = some p → ∃ e ∈ st.items p, liveFor j e = true
  faithful : ∀ p, ∀ e ∈ st.items p, live e = true → key e ≠ k ∧ st.get (key e) = some (val e)

omit [DecidableEq P] in
/-- A key without a current item has no live item. -/
theorem Tidy.but (h : Tidy st) (hnone : st.head k = none) : TidyBut k st := by
  refine ⟨h.single, fun j p _ => h.held j p, fun p e he hlive => ⟨fun hkey => ?_, h.faithful p e he hlive⟩⟩
  obtain ⟨q, hq⟩ := h.head_of_live he hlive
  rw [hkey, hnone] at hq
  cases hq

/-- The only live item of a key is killed. -/
theorem Tidy.drop (h : Tidy st) (honly : st.OnlyOn k p) : TidyBut k (st.retire p k) := by
  refine ⟨single_retire h.single, fun j q hjk hq => ?_, fun q e he hlive => ?_⟩
  · obtain ⟨e, he, hfor⟩ := h.held j q hq
    rw [retire_items]
    split
    · next heq =>
      subst heq
      refine List.find?_isSome.mp ?_
      rw [find_killFirst_of_ne hjk, List.find?_isSome]
      exact ⟨e, he, hfor⟩
    · exact ⟨e, he, hfor⟩
  · have hold := mem_of_retire he hlive
    have hne : key e ≠ k := by
      rintro rfl
      have hqp := honly q e hold (liveFor_iff.mpr ⟨hlive, rfl⟩)
      subst hqp
      rw [retire_items, if_pos rfl] at he
      exact List.find?_eq_none.mp (h.single q).find_killFirst e he (liveFor_iff.mpr ⟨hlive, rfl⟩)
    rw [get_retire_of_ne hne]
    exact ⟨hne, h.faithful q e hold hlive⟩

omit [DecidableEq P] in
theorem TidyBut.lacks (h : TidyBut k st) (p : P) : Lacks k (st.items p) :=
  fun e he hlive => (h.faithful p e he hlive).1

/-- The key gets a new item. -/
theorem TidyBut.add (h : TidyBut (key e) st) (hlive : live e = true) : Tidy (st.add p e) := by
  refine ⟨single_add h.single (h.lacks p), fun k q hq => ?_, fun q a ha halive => ?_⟩
  · change Function.update st.head (key e) (some p) k = some q at hq
    rw [Function.update_apply] at hq
    split at hq
    · next hk =>
      cases hq
      exact ⟨e, by simp [add_items], liveFor_iff.mpr ⟨hlive, hk.symm⟩⟩
    · next hk =>
      obtain ⟨a, ha, hfor⟩ := h.held k q hk hq
      refine ⟨a, ?_, hfor⟩
      rw [add_items]
      split
      · next heq => exact List.mem_append_left _ (heq ▸ ha)
      · exact ha
  · rw [get_add hlive (h.lacks p), Function.update_apply]
    have hold : ∀ r, a ∈ st.items r → (if key a = key e then some (val e) else st.get (key a)) = some (val a) := by
      intro r hr
      obtain ⟨hne, hget⟩ := h.faithful r a hr halive
      rw [if_neg hne, hget]
    rw [add_items] at ha
    split at ha
    · rcases List.mem_append.mp ha with hmem | hone
      · exact hold p hmem
      · rw [List.mem_singleton.mp hone, if_pos rfl]
    · exact hold q ha

omit [DecidableEq P] in
/-- The key is forgotten. -/
theorem TidyBut.forget (h : TidyBut k st) : Tidy (st.forget k) := by
  refine ⟨h.single, fun j q hq => ?_, fun q a ha halive => ?_⟩
  · change Function.update st.head k none j = some q at hq
    rw [Function.update_apply] at hq
    split at hq
    · cases hq
    · next hjk => exact h.held j q hjk hq
  · obtain ⟨hne, hget⟩ := h.faithful q a ha halive
    rw [get_forget, Function.update_of_ne hne]
    exact hget

/-- The item on another shelf is killed before or after. -/
theorem retire_add (hne : q ≠ p) : (st.retire q k).add p e = (st.add p e).retire q k := by
  have hp : (st.retire q k).items p = st.items p := by rw [retire_items, if_neg hne.symm]
  have hq : (st.add p e).items q = st.items q := by rw [add_items, if_neg hne]
  rw [add, hp, retire, Shelves.retire, hq, add]
  simp only [Shelves.mk.injEq, true_and]
  exact Function.update_comm hne _ _ _

theorem Exact.add (h : Exact st) (hnone : ∀ q, Lacks (key e) (st.items q)) : Exact (st.add p e) := by
  intro q a ha halive
  change Function.update st.head (key e) (some p) (key a) = some q
  have hold : ∀ r, a ∈ st.items r → Function.update st.head (key e) (some p) (key a) = some r := by
    intro r hr
    rw [Function.update_of_ne (hnone r a hr halive)]
    exact h r a hr halive
  rw [add_items] at ha
  split at ha
  · next heq =>
    rcases List.mem_append.mp ha with hmem | hone
    · exact heq ▸ hold p hmem
    · rw [List.mem_singleton.mp hone, Function.update_self, heq]
  · exact hold q ha

omit [DecidableEq P] in
theorem Exact.forget (h : Exact st) (hnone : ∀ q, Lacks k (st.items q)) : Exact (st.forget k) := by
  intro q a ha halive
  change Function.update st.head k none (key a) = some q
  rw [Function.update_of_ne (hnone q a ha halive)]
  exact h q a ha halive

/-! ## A new version -/

/-- The new item is put on its shelf first, and then the one before is killed. -/
theorem Tidy.replace (h : Tidy st) (honly : st.OnlyOn (key e) q) (hne : q ≠ p) (hlive : live e = true) :
    Tidy ((st.add p e).retire q (key e)) := by
  rw [← retire_add hne]
  exact (h.drop honly).add hlive

theorem Exact.replace (h : Exact st) (ht : Tidy st) (honly : st.OnlyOn (key e) q) (hne : q ≠ p) :
    Exact ((st.add p e).retire q (key e)) := by
  rw [← retire_add hne]
  exact h.retire.add (ht.drop honly).lacks

theorem get_replace (hne : q ≠ p) (hlive : live e = true) (hnew : Lacks (key e) (st.items p)) :
    ((st.add p e).retire q (key e)).get = Function.update st.get (key e) (some (val e)) := by
  have hq : (st.add p e).head (key e) ≠ some q := by
    change Function.update st.head (key e) (some p) (key e) ≠ some q
    rw [Function.update_self]
    exact fun hno => hne (Option.some.inj hno).symm
  rw [get_retire hq, get_add hlive hnew]

end Shelves
