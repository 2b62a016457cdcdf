import Mathlib.Tactic

/-!
# Programs that pass a state and may stop

`Prog σ ε α` is a program over a state `σ` that returns a value or stops with
an error of type `ε`.  The state at the point of the error is kept, so a caller
that inspects the error continues from there (`Prog.attempt`).

The `run_` lemmas run a program on a state, and `Prog.bind_ok` takes a sequence
apart.  `Prog.Keeps I x` says that `x` never leaves `I`, whatever it returns, and
`Prog.Triple P x Q` that a run from `P` ends in `Q` of its result.  `Prog.Yields I x A`
says in addition to `Keeps` that a value `x` returns meets `A`, and `Prog.Gives I x Q` that
the value and the state it is returned in meet `Q`.
-/

/-- A program over `σ` with errors in `ε`. -/
structure Prog (σ ε α : Type) : Type where
  run : σ → Except ε α × σ

namespace Prog

variable {σ ε α β : Type}

instance : Monad (Prog σ ε) where
  pure a := ⟨fun s => (.ok a, s)⟩
  bind x f := ⟨fun s =>
    match x.run s with
    | (.ok a, s') => (f a).run s'
    | (.error e, s') => (.error e, s')⟩

/-- The current state. -/
def get : Prog σ ε σ := ⟨fun s => (.ok s, s)⟩

/-- Stop with an error. -/
def throw (e : ε) : Prog σ ε α := ⟨fun s => (.error e, s)⟩

/-- Run a program and hand its error to the caller as a value. -/
def attempt (x : Prog σ ε α) : Prog σ ε (Except ε α) := ⟨fun s =>
  match x.run s with
  | (r, s') => (.ok r, s')⟩

/-- Stop with the error of `r`, or return its value. -/
def ofExcept (r : Except ε α) : Prog σ ε α := ⟨fun s => (r, s)⟩

/-- Run a program if the condition holds. -/
def when (c : Prop) [Decidable c] (x : Prog σ ε Unit) : Prog σ ε Unit :=
  if c then x else pure ()

/-! ## Running a program -/

@[simp] theorem run_pure (a : α) (s : σ) : (pure a : Prog σ ε α).run s = (.ok a, s) := rfl

@[simp] theorem run_get (s : σ) : (get : Prog σ ε σ).run s = (.ok s, s) := rfl

@[simp] theorem run_throw (e : ε) (s : σ) : (throw e : Prog σ ε α).run s = (.error e, s) := rfl

@[simp] theorem run_attempt (x : Prog σ ε α) (s : σ) :
    (attempt x).run s = (.ok (x.run s).1, (x.run s).2) := rfl

@[simp] theorem run_ofExcept (r : Except ε α) (s : σ) :
    (ofExcept r : Prog σ ε α).run s = (r, s) := rfl

theorem when_pos {c : Prop} [Decidable c] (h : c) (x : Prog σ ε Unit) : when c x = x := if_pos h

theorem when_neg {c : Prop} [Decidable c] (h : ¬ c) (x : Prog σ ε Unit) : when c x = pure () :=
  if_neg h

theorem run_bind (x : Prog σ ε α) (f : α → Prog σ ε β) (s : σ) :
    (x >>= f).run s =
      match x.run s with
      | (.ok a, s') => (f a).run s'
      | (.error e, s') => (.error e, s') := rfl

/-- A sequence whose first part returns. -/
theorem bind_of_ok {x : Prog σ ε α} {f : α → Prog σ ε β} {s s' : σ} {a : α}
    (h : x.run s = (.ok a, s')) : (x >>= f).run s = (f a).run s' := by
  simp [run_bind, h]

/-- A sequence whose first part stops. -/
theorem bind_of_error {x : Prog σ ε α} {f : α → Prog σ ε β} {s s' : σ} {e : ε}
    (h : x.run s = (.error e, s')) : (x >>= f).run s = (.error e, s') := by
  simp [run_bind, h]

/-- A sequence that returns has run its first part to a value. -/
theorem bind_ok {x : Prog σ ε α} {f : α → Prog σ ε β} {s s'' : σ} {b : β}
    (h : (x >>= f).run s = (.ok b, s'')) :
    ∃ a s', x.run s = (.ok a, s') ∧ (f a).run s' = (.ok b, s'') := by
  rw [run_bind] at h
  rcases hx : x.run s with ⟨r, s'⟩
  rw [hx] at h
  cases r with
  | error e => simp at h
  | ok a => exact ⟨a, s', rfl, h⟩

/-- A sequence that stops has stopped in one of its parts. -/
theorem bind_error {x : Prog σ ε α} {f : α → Prog σ ε β} {s s'' : σ} {e : ε}
    (h : (x >>= f).run s = (.error e, s'')) :
    x.run s = (.error e, s'') ∨ ∃ a s', x.run s = (.ok a, s') ∧ (f a).run s' = (.error e, s'') := by
  rw [run_bind] at h
  rcases hx : x.run s with ⟨r, s'⟩
  rw [hx] at h
  cases r with
  | error e' =>
    cases h
    exact .inl rfl
  | ok a => exact .inr ⟨a, s', rfl, h⟩

/-! ## Invariants -/

/-- The program never leaves `I`, whether it returns or stops.  A class, so that
the rules below take a program apart. -/
class Keeps (I : σ → Prop) (x : Prog σ ε α) : Prop where
  keeps : ∀ s, I s → I (x.run s).2

/-- From a state in `P` the program ends in `Q` of its result. -/
def Triple (P : σ → Prop) (x : Prog σ ε α) (Q : Except ε α → σ → Prop) : Prop :=
  ∀ s, P s → Q (x.run s).1 (x.run s).2

section Rules

variable {I P : σ → Prop} {x : Prog σ ε α} {f : α → Prog σ ε β} {Q Q' : Except ε α → σ → Prop}
  {R : Except ε β → σ → Prop}

instance (a : α) : Keeps I (pure a : Prog σ ε α) := ⟨fun _ hs => hs⟩

instance : Keeps I (get : Prog σ ε σ) := ⟨fun _ hs => hs⟩

instance (e : ε) : Keeps I (throw e : Prog σ ε α) := ⟨fun _ hs => hs⟩

instance (r : Except ε α) : Keeps I (ofExcept r : Prog σ ε α) := ⟨fun _ hs => hs⟩

instance [h : Keeps I x] : Keeps I (attempt x) := ⟨h.keeps⟩

/-- The rule for a sequence. -/
instance Keeps.bind [j : Keeps I x] [k : ∀ a, Keeps I (f a)] : Keeps I (x >>= f) := by
  constructor
  intro s hs
  have hs' := j.keeps s hs
  rw [run_bind]
  rcases h : x.run s with ⟨r, s'⟩
  rw [h] at hs'
  cases r with
  | error e => exact hs'
  | ok a => exact (k a).keeps s' hs'

instance {c : Prop} [Decidable c] {x : Prog σ ε Unit} [hx : Keeps I x] : Keeps I (when c x) := by
  unfold when
  split
  · exact hx
  · infer_instance

instance {c : Prop} [Decidable c] {y : Prog σ ε α} [hx : Keeps I x] [hy : Keeps I y] :
    Keeps I (if c then x else y) := by
  split
  · exact hx
  · exact hy

/-- The rule for a sequence whose first part keeps `I` and whose second part leads
from `I` to `J`. -/
theorem Keeps.bind_to {J : σ → Prop} {s : σ} (hx : Keeps I x)
    (hf : ∀ a s', I s' → J ((f a).run s').2) (hIJ : ∀ s', I s' → J s') (hs : I s) :
    J ((x >>= f).run s).2 := by
  have hs' := hx.keeps s hs
  rw [run_bind]
  rcases h : x.run s with ⟨r, s'⟩
  rw [h] at hs'
  cases r with
  | error e => exact hIJ s' hs'
  | ok a => exact hf a s' hs'

/-- The rule for a sequence whose first part, from one state, ends in `I`. -/
theorem Keeps.after {s : σ} (hx : I (x.run s).2) (hf : ∀ a, Keeps I (f a)) : I ((x >>= f).run s).2 := by
  rw [run_bind]
  rcases h : x.run s with ⟨r, s'⟩
  rw [h] at hx
  cases r with
  | error e => exact hx
  | ok a => exact (hf a).keeps s' hx

/-- The rule for a sequence, by the result of its first part. -/
theorem run_bind_cases {J : Except ε β → σ → Prop} {s : σ}
    (herr : ∀ e s', x.run s = (.error e, s') → J (.error e) s')
    (hok : ∀ a s', x.run s = (.ok a, s') → J ((f a).run s').1 ((f a).run s').2) :
    J ((x >>= f).run s).1 ((x >>= f).run s).2 := by
  rw [run_bind]
  rcases h : x.run s with ⟨r, s'⟩
  cases r with
  | error e => exact herr e s' h
  | ok a => exact hok a s' h

/-- What two invariants keep, both keep together. -/
theorem Keeps.and {J : σ → Prop} (hI : Keeps I x) (hJ : Keeps J x) : Keeps (fun s => I s ∧ J s) x :=
  ⟨fun s hs => ⟨hI.keeps s hs.1, hJ.keeps s hs.2⟩⟩

/-- The rule for a sequence, with an assertion between its parts. -/
theorem Triple.bind (hx : Triple P x Q) (hf : ∀ a, Triple (Q (.ok a)) (f a) R)
    (he : ∀ e s, Q (.error e) s → R (.error e) s) : Triple P (x >>= f) R := by
  intro s hs
  have hq := hx s hs
  rw [run_bind]
  rcases h : x.run s with ⟨r, s'⟩
  rw [h] at hq
  cases r with
  | error e => exact he e s' hq
  | ok a => exact hf a s' hq

/-- The program never leaves `I`, and a value it returns meets `A`. -/
structure Yields (I : σ → Prop) (x : Prog σ ε α) (A : α → Prop) : Prop where
  keeps : ∀ s, I s → I (x.run s).2
  value : ∀ s a, I s → (x.run s).1 = .ok a → A a

variable {A A' : α → Prop} {B : β → Prop}

theorem Yields.toKeeps (h : Yields I x A) : Keeps I x := ⟨h.keeps⟩

theorem Yields.ofKeeps [h : Keeps I x] : Yields I x fun _ => True := ⟨h.keeps, fun _ _ _ _ => trivial⟩

/-- A value that is not looked at. -/
theorem Yields.ofConst [h : Keeps I x] {p : Prop} (hp : p) : Yields I x fun _ => p := ⟨h.keeps, fun _ _ _ _ => hp⟩

theorem Yields.mono (h : Yields I x A) (hA : ∀ a, A a → A' a) : Yields I x A' :=
  ⟨h.keeps, fun s a hs ha => hA a (h.value s a hs ha)⟩

theorem Yields.pure {a : α} (h : A a) : Yields I (Pure.pure a : Prog σ ε α) A :=
  ⟨fun _ hs => hs, fun _ _ _ ha => by cases ha; exact h⟩

theorem Yields.throw (e : ε) : Yields I (Prog.throw e : Prog σ ε α) A :=
  ⟨fun _ hs => hs, fun _ _ _ ha => by cases ha⟩

theorem Yields.get {C : σ → Prop} (h : ∀ s, I s → C s) : Yields I (Prog.get : Prog σ ε σ) C :=
  ⟨fun _ hs => hs, fun s _ hs ha => by cases ha; exact h s hs⟩

theorem Yields.attempt (h : Yields I x A) : Yields I (Prog.attempt x) fun r => ∀ a, r = .ok a → A a :=
  ⟨h.keeps, fun s r hs hr a ha => by cases hr; exact h.value s a hs ha⟩

/-- The rule for a sequence, with what is known of the value between its parts. -/
theorem Yields.bind (hx : Yields I x A) (hf : ∀ a, A a → Yields I (f a) B) : Yields I (x >>= f) B := by
  refine ⟨fun s hs => ?_, fun s b hs hb => ?_⟩
  · have hs' := hx.keeps s hs
    rw [run_bind]
    rcases h : x.run s with ⟨r, s'⟩
    rw [h] at hs'
    cases r with
    | error e => exact hs'
    | ok a => exact (hf a (hx.value s a hs (by rw [h]))).keeps s' hs'
  · have hs' := hx.keeps s hs
    rw [run_bind] at hb
    rcases h : x.run s with ⟨r, s'⟩
    rw [h] at hs' hb
    cases r with
    | error e => cases hb
    | ok a => exact (hf a (hx.value s a hs (by rw [h]))).value s' b hs' hb

/-- The rule for a sequence of which only the invariant matters. -/
theorem Yields.bindKeeps (hx : Yields I x A) (hf : ∀ a, A a → Keeps I (f a)) : Keeps I (x >>= f) :=
  (hx.bind fun a ha => @Yields.ofKeeps _ _ _ _ _ (hf a ha)).toKeeps

/-- The rule for a sequence whose second part leads from `I` to `J`. -/
theorem Yields.bind_to {J : σ → Prop} {s : σ} (hx : Yields I x A)
    (hf : ∀ a s', A a → I s' → J ((f a).run s').2) (hIJ : ∀ s', I s' → J s') (hs : I s) :
    J ((x >>= f).run s).2 := by
  have hs' := hx.keeps s hs
  rw [run_bind]
  rcases h : x.run s with ⟨r, s'⟩
  rw [h] at hs'
  cases r with
  | error e => exact hIJ s' hs'
  | ok a => exact hf a s' (hx.value s a hs (by rw [h])) hs'

theorem Yields.ite {c : Prop} [Decidable c] {y : Prog σ ε α} (hx : c → Yields I x A) (hy : ¬ c → Yields I y A) :
    Yields I (if c then x else y) A := by
  split
  · next h => exact hx h
  · next h => exact hy h

/-- The program never leaves `I`, and a value it returns meets `Q` in the state at that point. -/
structure Gives (I : σ → Prop) (x : Prog σ ε α) (Q : α → σ → Prop) : Prop where
  keeps : ∀ s, I s → I (x.run s).2
  post : ∀ s a, I s → (x.run s).1 = .ok a → Q a (x.run s).2

variable {G G' : α → σ → Prop} {H : β → σ → Prop}

theorem Gives.toKeeps (h : Gives I x G) : Keeps I x := ⟨h.keeps⟩

theorem Gives.ofKeeps [h : Keeps I x] : Gives I x fun _ _ => True := ⟨h.keeps, fun _ _ _ _ => trivial⟩

theorem Gives.pure {a : α} (h : ∀ s, I s → G a s) : Gives I (Pure.pure a : Prog σ ε α) G :=
  ⟨fun _ hs => hs, fun s _ hs ha => by cases ha; exact h s hs⟩

theorem Gives.throw (e : ε) : Gives I (Prog.throw e : Prog σ ε α) G :=
  ⟨fun _ hs => hs, fun _ _ _ ha => by cases ha⟩

theorem Gives.mono (h : Gives I x G) (hG : ∀ a s, G a s → G' a s) : Gives I x G' :=
  ⟨h.keeps, fun s a hs ha => hG _ _ (h.post s a hs ha)⟩

theorem Gives.attempt (h : Gives I x G) : Gives I (Prog.attempt x) fun r s => ∀ a, r = .ok a → G a s :=
  ⟨h.keeps, fun s r hs hr a ha => by cases hr; exact h.post s a hs ha⟩

theorem Gives.ite {c : Prop} [Decidable c] {y : Prog σ ε α} (hx : c → Gives I x G) (hy : ¬ c → Gives I y G) :
    Gives I (if c then x else y) G := by
  split
  · next h => exact hx h
  · next h => exact hy h

/-- The rule for a sequence, with what is known of the value and the state between its parts. -/
theorem Gives.bind (hx : Gives I x G)
    (hf : ∀ a s, I s → G a s → I ((f a).run s).2 ∧ ∀ b, ((f a).run s).1 = .ok b → H b ((f a).run s).2) :
    Gives I (x >>= f) H := by
  refine ⟨fun s hs => ?_, fun s b hs hb => ?_⟩
  · have hs' := hx.keeps s hs
    rw [run_bind]
    rcases h : x.run s with ⟨r, s'⟩
    rw [h] at hs'
    cases r with
    | error e => exact hs'
    | ok a =>
      have hG := hx.post s a hs (by rw [h])
      rw [h] at hG
      exact (hf a s' hs' hG).1
  · have hs' := hx.keeps s hs
    rw [run_bind] at hb ⊢
    rcases h : x.run s with ⟨r, s'⟩
    rw [h] at hs' hb
    cases r with
    | error e => cases hb
    | ok a =>
      have hG := hx.post s a hs (by rw [h])
      rw [h] at hG
      exact (hf a s' hs' hG).2 b hb

/-- The rule for a sequence that ends in `H` by its second part alone. -/
theorem Yields.bindGives (hx : Yields I x A) (hf : ∀ a, A a → Gives I (f a) H) : Gives I (x >>= f) H := by
  refine Gives.bind (G := fun a _ => A a) ⟨hx.keeps, fun s a hs ha => hx.value s a hs ha⟩ fun a s hs ha => ?_
  exact ⟨(hf a ha).keeps s hs, fun b hb => (hf a ha).post s b hs hb⟩

/-- The rule for a sequence whose first part only keeps the invariant. -/
theorem Keeps.bindGives (hx : Keeps I x) (hf : ∀ a, Gives I (f a) H) : Gives I (x >>= f) H :=
  Yields.bindGives Yields.ofKeeps fun a _ => hf a

end Rules

end Prog
