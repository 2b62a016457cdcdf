import Mathlib.Tactic

/-!
# NOR memory

A NOR memory is the set of its cleared bits.  The set is kept as one number,
whose bit `8 * i + j` is one when bit `j` of byte `i` is clear.  Programming can
only clear bits, so it is a union.  Erasing a range sets its bytes to `0xff`, so
it removes the range from the set.  A byte outside the memory has no cleared bit
and reads as erased.

`get_program` and `get_erase` say what one byte is after each operation.
Everything else is read off from them.
-/

namespace Nor

/-- A byte. -/
abbrev Byte := BitVec 8

/-- The erased byte. -/
abbrev blank : Byte := 0xff#8

/-- The contents of a memory of `size` bytes. -/
structure Mem where
  /-- The number of bytes. -/
  size : Nat
  /-- The cleared bits. -/
  cleared : Nat
deriving DecidableEq

/-- The byte at an address. -/
def get (m : Mem) (i : Nat) : Byte := ~~~(BitVec.ofNat 8 (m.cleared >>> (8 * i)))

/-- The `n` bytes from `off` on. -/
def read (m : Mem) (off : Nat) : Nat → List Byte
  | 0 => []
  | n + 1 => get m off :: read m (off + 1) n

/-- The bits a list of bytes clears, the first byte lowest. -/
def clears : List Byte → Nat
  | [] => 0
  | b :: bs => (~~~b).toNat + (clears bs) <<< 8

/-- Clear the bits that are clear in `bs`, from `off` on. -/
def program (m : Mem) (off : Nat) (bs : List Byte) : Mem :=
  { m with cleared := m.cleared ||| (clears bs <<< (8 * off)) }

/-- Set the `n` bytes from `off` on to `0xff`. -/
def erase (m : Mem) (off n : Nat) : Mem :=
  { m with cleared := m.cleared ^^^ (m.cleared &&& ((2 ^ (8 * n) - 1) <<< (8 * off))) }

/-- The memory with every byte erased. -/
def erased (size : Nat) : Mem := ⟨size, 0⟩

/-! ## Bits of a byte -/

theorem getLsbD_get (m : Mem) (i : Nat) {j : Nat} (hj : j < 8) :
    (get m i).getLsbD j = !m.cleared.testBit (8 * i + j) := by
  rw [get, BitVec.getLsbD_not, BitVec.getLsbD_ofNat, Nat.testBit_shiftRight]
  simp [hj]

theorem testBit_clears (bs : List Byte) (i : Nat) {j : Nat} (hj : j < 8) :
    (clears bs).testBit (8 * i + j) = !(bs.getD i blank).getLsbD j := by
  induction bs generalizing i with
  | nil =>
    have hb : (blank).getLsbD j = true := by interval_cases j <;> rfl
    simp [clears, hb]
  | cons b bs ih =>
    have hlt : (~~~b).toNat < 2 ^ 8 := (~~~b).isLt
    have hsum : clears (b :: bs) = 2 ^ 8 * clears bs + (~~~b).toNat := by
      simp only [clears, Nat.shiftLeft_eq]
      omega
    rw [hsum, Nat.testBit_two_pow_mul_add _ hlt]
    cases i with
    | zero =>
      have hbit : (~~~b).toNat.testBit j = (~~~b).getLsbD j := rfl
      rw [Nat.mul_zero, Nat.zero_add, if_pos hj, hbit, BitVec.getLsbD_not, List.getD_cons_zero]
      simp [hj]
    | succ i =>
      have hge : ¬ 8 * (i + 1) + j < 8 := by omega
      have hsub : 8 * (i + 1) + j - 8 = 8 * i + j := by omega
      rw [if_neg hge, hsub, ih i]
      simp

theorem byte_ext {a b : Byte} (h : ∀ j < 8, a.getLsbD j = b.getLsbD j) : a = b :=
  BitVec.eq_of_getLsbD_eq h

/-! ## One byte after an operation -/

@[simp] theorem size_program (m : Mem) (off : Nat) (bs : List Byte) :
    (program m off bs).size = m.size := rfl

@[simp] theorem size_erase (m : Mem) (off n : Nat) : (erase m off n).size = m.size := rfl

@[simp] theorem get_erased (n i : Nat) : get (erased n) i = blank := by
  apply byte_ext
  intro j hj
  rw [getLsbD_get _ _ hj]
  have hb : (blank).getLsbD j = true := by interval_cases j <;> rfl
  simp [erased, hb]

/-- A byte after a program: the old byte and the programmed one, in the range. -/
theorem get_program (m : Mem) (off : Nat) (bs : List Byte) (i : Nat) :
    get (program m off bs) i =
      if off ≤ i then get m i &&& bs.getD (i - off) blank else get m i := by
  apply byte_ext
  intro j hj
  rw [getLsbD_get _ _ hj]
  by_cases hi : off ≤ i
  · have hge : 8 * off ≤ 8 * i + j := by omega
    have hsub : 8 * i + j - 8 * off = 8 * (i - off) + j := by omega
    simp only [program, Nat.testBit_or, Nat.testBit_shiftLeft, if_pos hi, BitVec.getLsbD_and,
      getLsbD_get _ _ hj, hsub, testBit_clears _ _ hj, decide_eq_true hge]
    simp
  · have hlt : ¬ 8 * off ≤ 8 * i + j := by omega
    simp only [program, Nat.testBit_or, Nat.testBit_shiftLeft, if_neg hi,
      getLsbD_get _ _ hj, decide_eq_false hlt]
    simp

/-- A byte after an erase. -/
theorem get_erase (m : Mem) (off n i : Nat) :
    get (erase m off n) i = if off ≤ i ∧ i < off + n then blank else get m i := by
  apply byte_ext
  intro j hj
  rw [getLsbD_get _ _ hj]
  have hmask : ((2 ^ (8 * n) - 1) <<< (8 * off)).testBit (8 * i + j) =
      decide (off ≤ i ∧ i < off + n) := by
    rw [Nat.testBit_shiftLeft, Nat.testBit_two_pow_sub_one, ← Bool.decide_and]
    apply decide_eq_decide.mpr
    omega
  simp only [erase, Nat.testBit_xor, Nat.testBit_and, hmask]
  by_cases hin : off ≤ i ∧ i < off + n
  · have hb : (blank).getLsbD j = true := by interval_cases j <;> rfl
    simp [hin, hb]
  · simp [hin, getLsbD_get _ _ hj]

/-- Outside the programmed range nothing changes. -/
theorem get_program_of_notMem {m : Mem} {off : Nat} {bs : List Byte} {i : Nat}
    (h : i < off ∨ off + bs.length ≤ i) : get (program m off bs) i = get m i := by
  rw [get_program]
  split
  · have hb : bs.getD (i - off) blank = blank := by
      rw [List.getD_eq_getElem?_getD, List.getElem?_eq_none (by omega), Option.getD_none]
    rw [hb]
    exact BitVec.and_allOnes
  · rfl

/-- An erased byte takes the programmed value. -/
theorem get_program_blank {m : Mem} {off : Nat} {bs : List Byte} {i : Nat}
    (hle : off ≤ i) (hb : get m i = blank) :
    get (program m off bs) i = bs.getD (i - off) blank := by
  rw [get_program, if_pos hle, hb]
  exact BitVec.allOnes_and

/-- Two memories with the same bytes are the same. -/
theorem ext_get {m m' : Mem} (hsize : m.size = m'.size) (h : ∀ i, get m i = get m' i) : m = m' := by
  obtain ⟨size, cleared⟩ := m
  obtain ⟨size', cleared'⟩ := m'
  congr 1
  apply Nat.eq_of_testBit_eq
  intro b
  have hj : b % 8 < 8 := Nat.mod_lt _ (by decide)
  have hb : 8 * (b / 8) + b % 8 = b := Nat.div_add_mod b 8
  have hbit := congrArg (fun x : Byte => x.getLsbD (b % 8)) (h (b / 8))
  simp only [getLsbD_get _ _ hj, hb] at hbit
  simpa using hbit

/-! ## Programming in parts -/

/-- Programming one list after the other. -/
theorem program_append (m : Mem) (off : Nat) (as bs : List Byte) :
    program (program m off as) (off + as.length) bs = program m off (as ++ bs) := by
  refine ext_get (by simp) ?_
  intro i
  have hblank : ∀ b : Byte, b &&& blank = b := fun b => BitVec.and_allOnes
  simp only [get_program]
  by_cases h1 : off + as.length ≤ i
  · have h2 : off ≤ i := by omega
    have has : as.getD (i - off) blank = blank := by
      rw [List.getD_eq_getElem?_getD, List.getElem?_eq_none (by omega), Option.getD_none]
    have hbs : (as ++ bs).getD (i - off) blank = bs.getD (i - (off + as.length)) blank := by
      rw [List.getD_eq_getElem?_getD, List.getElem?_append_right (by omega),
        List.getD_eq_getElem?_getD]
      congr 2
      omega
    rw [if_pos h1, if_pos h2, if_pos h2, has, hbs, hblank]
  · rw [if_neg h1]
    split
    · have has : (as ++ bs).getD (i - off) blank = as.getD (i - off) blank := by
        rw [List.getD_eq_getElem?_getD, List.getElem?_append_left (by omega),
          List.getD_eq_getElem?_getD]
      rw [has]
    · rfl

/-- Programming blank bytes changes nothing. -/
theorem program_blanks (m : Mem) (off n : Nat) : program m off (List.replicate n blank) = m := by
  refine ext_get (by simp) ?_
  intro i
  have hblank : (List.replicate n blank).getD (i - off) blank = blank := by
    rw [List.getD_eq_getElem?_getD]
    rcases h : (List.replicate n blank)[i - off]? with _ | b
    · rfl
    · exact List.eq_of_mem_replicate (List.mem_of_getElem? h)
  rw [get_program, hblank]
  split
  · exact BitVec.and_allOnes
  · rfl

/-- Blank bytes around a program do not matter. -/
theorem program_padded (m : Mem) (off a b : Nat) (bs : List Byte) :
    program m off (List.replicate a blank ++ bs ++ List.replicate b blank) =
      program m (off + a) bs := by
  rw [← program_append, program_blanks, ← program_append, program_blanks, List.length_replicate]

/-! ## Reading a range -/

@[simp] theorem length_read (m : Mem) (off n : Nat) : (read m off n).length = n := by
  induction n generalizing off with
  | zero => rfl
  | succ n ih => simp [read, ih]

theorem getD_read (m : Mem) (off n i : Nat) (d : Byte) (hi : i < n) :
    (read m off n).getD i d = get m (off + i) := by
  induction n generalizing off i with
  | zero => omega
  | succ n ih =>
    cases i with
    | zero => simp [read]
    | succ i =>
      have hadd : off + 1 + i = off + (i + 1) := by omega
      simp only [read, List.getD_cons_succ, ih (off + 1) i (by omega), hadd]

theorem getElem_read (m : Mem) (off n i : Nat) (hi : i < (read m off n).length) :
    (read m off n)[i] = get m (off + i) := by
  rw [← getD_read m off n i blank (by simpa using hi), List.getD_eq_getElem?_getD,
    List.getElem?_eq_getElem hi, Option.getD_some]

/-- Two memories that agree on a range read the same there. -/
theorem read_congr {m m' : Mem} {off n : Nat}
    (h : ∀ i, off ≤ i → i < off + n → get m i = get m' i) : read m off n = read m' off n := by
  induction n generalizing off with
  | zero => rfl
  | succ n ih =>
    simp only [read]
    rw [h off (by omega) (by omega), ih fun i h1 h2 => h i (by omega) (by omega)]

theorem read_append (m : Mem) (off a b : Nat) :
    read m off (a + b) = read m off a ++ read m (off + a) b := by
  induction a generalizing off with
  | zero => simp [read]
  | succ a ih =>
    have hadd : a + 1 + b = (a + b) + 1 := by omega
    have hoff : off + 1 + a = off + (a + 1) := by omega
    simp only [hadd, read, ih, List.cons_append, hoff]

theorem ext_getD {as bs : List Byte} (hlen : as.length = bs.length)
    (h : ∀ i < as.length, as.getD i blank = bs.getD i blank) : as = bs := by
  apply List.ext_getElem hlen
  intro i h1 h2
  have hi := h i h1
  rwa [List.getD_eq_getElem?_getD, List.getD_eq_getElem?_getD, List.getElem?_eq_getElem h1,
    List.getElem?_eq_getElem h2] at hi

/-- A range of blank bytes. -/
theorem read_eq_blanks {m : Mem} {off n : Nat}
    (h : ∀ i, off ≤ i → i < off + n → get m i = blank) : read m off n = List.replicate n blank := by
  apply List.eq_replicate_iff.mpr
  refine ⟨length_read .., ?_⟩
  intro b hb
  obtain ⟨k, hk, rfl⟩ := List.getElem_of_mem hb
  rw [length_read] at hk
  rw [getElem_read]
  exact h (off + k) (by omega) (by omega)

/-- A blank range takes the programmed bytes. -/
theorem read_program_blank {m : Mem} {off n : Nat}
    (hblank : read m off n = List.replicate n blank) (bs : List Byte) (hlen : bs.length = n) :
    read (program m off bs) off n = bs := by
  apply ext_getD (by simp [hlen])
  intro i hi
  rw [length_read] at hi
  have hget : get m (off + i) = blank := by
    rw [← getD_read m off n i blank hi, hblank, List.getD_eq_getElem?_getD,
      List.getElem?_replicate_of_lt hi, Option.getD_some]
  rw [getD_read _ _ _ _ _ hi, get_program_blank (by omega) hget, Nat.add_sub_cancel_left]

/-- Reading a range that a program does not meet. -/
theorem read_program_of_disjoint {m : Mem} {off n pos : Nat} {bs : List Byte}
    (h : off + n ≤ pos ∨ pos + bs.length ≤ off) : read (program m pos bs) off n = read m off n :=
  read_congr fun i h1 h2 => get_program_of_notMem (by omega)

/-- A programmed range loses the bits that are clear in the buffer. -/
theorem read_program (m : Mem) (off : Nat) (bs : List Byte) :
    read (program m off bs) off bs.length = List.zipWith (· &&& ·) (read m off bs.length) bs := by
  apply ext_getD (by simp)
  intro i hi
  rw [length_read] at hi
  have hlen : i < (read m off bs.length).length := by simpa using hi
  rw [getD_read _ _ _ _ _ hi, get_program, if_pos (Nat.le_add_right off i), Nat.add_sub_cancel_left]
  simp [List.getD_eq_getElem?_getD, hi, getElem_read]

/-- Programming a part of a range. -/
theorem read_program_part {m : Mem} {off n k : Nat} {as bs cs x : List Byte}
    (h : read m off n = as ++ bs ++ cs) (hk : as.length = k) (hlen : x.length = bs.length) :
    read (program m (off + k) x) off n = as ++ List.zipWith (· &&& ·) bs x ++ cs := by
  subst hk
  have hn : n = as.length + bs.length + cs.length := by
    have hlength := congrArg List.length h
    rw [length_read, List.length_append, List.length_append] at hlength
    exact hlength
  subst hn
  rw [read_append, read_append] at h ⊢
  obtain ⟨hfront, hcs⟩ := List.append_inj h (by simp)
  obtain ⟨has, hbs⟩ := List.append_inj hfront (by simp)
  have hfirst : read (program m (off + as.length) x) off as.length = as :=
    (read_program_of_disjoint (.inl (Nat.le_refl _))).trans has
  have hlast : read (program m (off + as.length) x) (off + (as.length + bs.length)) cs.length = cs :=
    (read_program_of_disjoint (.inr (by omega))).trans hcs
  rw [hfirst, hlast, ← hlen, read_program, hlen, hbs]

/-! ## Cleared bits -/

/-- `m'` is `m` with some bits cleared. -/
structure Below (m' m : Mem) : Prop where
  size : m'.size = m.size
  get : ∀ i, get m' i &&& get m i = get m' i

section Below

variable {m m' m'' : Mem}

theorem Below.refl (m : Mem) : Below m m := ⟨rfl, fun _ => BitVec.and_self⟩

theorem Below.trans (h : Below m'' m') (h' : Below m' m) : Below m'' m := by
  refine ⟨h.size.trans h'.size, fun i => ?_⟩
  rw [← h.get i, BitVec.and_assoc, h'.get i]

theorem program_below (m : Mem) (off : Nat) (bs : List Byte) : Below (program m off bs) m := by
  refine ⟨rfl, fun i => ?_⟩
  rw [get_program]
  split
  · rw [BitVec.and_assoc, BitVec.and_comm (bs.getD _ _), ← BitVec.and_assoc, BitVec.and_self]
  · exact BitVec.and_self

/-- Programming fewer bits leaves more. -/
theorem program_mono (m : Mem) (off : Nat) {as bs : List Byte}
    (h : ∀ i, as.getD i blank &&& bs.getD i blank = as.getD i blank) :
    Below (program m off as) (program m off bs) := by
  refine ⟨rfl, fun i => ?_⟩
  rw [get_program, get_program]
  split
  · have hand : ∀ a b c : Byte, a &&& b &&& (a &&& c) = a &&& (b &&& c) := by
      intro a b c
      ext i
      simp only [BitVec.getElem_and]
      cases a[i] <;> simp
    rw [hand, h]
  · exact BitVec.and_self

/-- A byte that reads as erased was erased before. -/
theorem Below.blank (h : Below m' m) {i : Nat} (hb : Nor.get m' i = blank) : Nor.get m i = blank := by
  have hi := h.get i
  rw [hb] at hi
  exact BitVec.allOnes_and.symm.trans hi

/-- A byte between two equal ones. -/
theorem Below.between (h : Below m'' m') (h' : Below m' m) {i : Nat}
    (heq : Nor.get m'' i = Nor.get m i) : Nor.get m' i = Nor.get m i := by
  have h1 := h.get i
  have h2 := h'.get i
  rw [heq] at h1
  rw [← h2, BitVec.and_comm, h1]

end Below

end Nor
