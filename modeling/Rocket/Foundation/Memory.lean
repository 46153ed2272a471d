import Mathlib.Data.BitVec
import Mathlib.Data.Nat.Notation
import Mathlib.Logic.Function.Basic
import Mathlib.Tactic.NormNum

/-!
# Memory

A memory of bytes with addresses of 64 bits, and its words of 64 bits, the least
significant byte first. Addresses wrap round, so a block of bytes is described by the
distance from its first address.

A write changes the bytes of its own block. Blocks that have no byte in common do not see
each other's writes (`read_write_of_separate`), and a word reads back as it has been written
(`read_write_self`).
-/

namespace Foundation

abbrev Address := BitVec 64

/-- The address `x` belongs to the `n` bytes from `a` on. -/
def InBlock (a : Address) (n : ℕ) (x : Address) : Prop := (x - a).toNat < n

instance (a : Address) (n : ℕ) (x : Address) : Decidable (InBlock a n x) :=
  inferInstanceAs (Decidable (_ < _))

def Separate (a : Address) (n : ℕ) (b : Address) (k : ℕ) : Prop :=
  ∀ x, InBlock a n x → ¬ InBlock b k x

abbrev Memory := Address → BitVec 8

namespace Memory

/-- The word at `a`. -/
def read (m : Memory) (a : Address) : BitVec 64 :=
  m (a + 7#64) ++ m (a + 6#64) ++ m (a + 5#64) ++ m (a + 4#64) ++ m (a + 3#64) ++ m (a + 2#64) ++
    m (a + 1#64) ++ m a

/-- Write a word to the eight bytes at `a`. -/
def write (m : Memory) (a : Address) (v : BitVec 64) : Memory :=
  fun x => if InBlock a 8 x then v.extractLsb' (8 * (x - a).toNat) 8 else m x

def writeBytes (m : Memory) (bytes : List (Address × BitVec 8)) : Memory :=
  bytes.foldl (fun m p => Function.update m p.1 p.2) m

end Memory

section Block

variable {a b x : Address} {n k : ℕ}

theorem Separate.symm (h : Separate a n b k) : Separate b k a n := fun x hb ha => h x ha hb

theorem toNat_add_sub (a : Address) {i : ℕ} (hi : i < 2 ^ 64) :
    (a + BitVec.ofNat 64 i - a).toNat = i := by
  rw [BitVec.add_comm, BitVec.add_sub_cancel, BitVec.toNat_ofNat, Nat.mod_eq_of_lt hi]

theorem inBlock_add (a : Address) {i : ℕ} (hi : i < n) (hn : n ≤ 2 ^ 64) :
    InBlock a n (a + BitVec.ofNat 64 i) := by
  rw [InBlock, toNat_add_sub a (by omega)]
  exact hi

theorem InBlock.exists_eq_add (h : InBlock a n x) :
    ∃ i < n, x = a + BitVec.ofNat 64 i := by
  refine ⟨(x - a).toNat, h, ?_⟩
  rw [BitVec.ofNat_toNat, BitVec.setWidth_eq, BitVec.add_comm, BitVec.sub_add_cancel]

theorem InBlock.of_add {i : ℕ} (h : InBlock (a + BitVec.ofNat 64 i) k x) (hi : i + k ≤ n)
    (hn : n ≤ 2 ^ 64) : InBlock a n x := by
  obtain ⟨j, hj, rfl⟩ := h.exists_eq_add
  rw [BitVec.add_assoc, ← BitVec.ofNat_add]
  exact inBlock_add a (by omega) hn

theorem separate_add (a : Address) {i j : ℕ} (hij : i + n ≤ j) (hj : j + k ≤ 2 ^ 64) :
    Separate (a + BitVec.ofNat 64 i) n (a + BitVec.ofNat 64 j) k := by
  intro x hi hjx
  obtain ⟨p, hp, rfl⟩ := hi.exists_eq_add
  obtain ⟨q, hq, heq⟩ := hjx.exists_eq_add
  rw [BitVec.add_assoc, BitVec.add_assoc, ← BitVec.ofNat_add, ← BitVec.ofNat_add] at heq
  have hdist := congrArg (fun y => (y - a).toNat) heq
  rw [toNat_add_sub a (by omega), toNat_add_sub a (by omega)] at hdist
  omega

theorem toNat_and_neg_sixteen (a : Address) : (a &&& -16).toNat = 16 * (a.toNat / 16) := by
  have hmask : (-16 : Address).toNat = 2 ^ 4 * (2 ^ 60 - 1) := by decide
  have hdiv : 16 * (a.toNat / 16) = 2 ^ 4 * (a.toNat / 2 ^ 4) := by norm_num
  rw [BitVec.toNat_and, hmask, hdiv]
  refine Nat.eq_of_testBit_eq fun i => ?_
  rw [Nat.testBit_and, Nat.testBit_two_pow_mul, Nat.testBit_two_pow_mul, Nat.testBit_div_two_pow,
    Nat.testBit_two_pow_sub_one]
  by_cases hlow : 4 ≤ i
  · by_cases hhigh : i < 64
    · have hi : i - 4 < 60 := by omega
      simp [hlow, hi, Nat.sub_add_cancel hlow]
    · have hlt : a.toNat < 2 ^ i :=
        a.isLt.trans_le (Nat.pow_le_pow_right (by omega) (by omega))
      simp [Nat.testBit_lt_two_pow hlt, Nat.sub_add_cancel hlow]
  · simp [hlow]

theorem inBlock_iff (h : a.toNat + n ≤ 2 ^ 64) :
    InBlock a n x ↔ a.toNat ≤ x.toNat ∧ x.toNat < a.toNat + n := by
  rw [InBlock, BitVec.toNat_sub]
  have ha := a.isLt
  have hx := x.isLt
  by_cases hle : a.toNat ≤ x.toNat
  · have hmod : (2 ^ 64 - a.toNat + x.toNat) % 2 ^ 64 = x.toNat - a.toNat := by omega
    rw [hmod]
    omega
  · have hmod : (2 ^ 64 - a.toNat + x.toNat) % 2 ^ 64 = 2 ^ 64 - a.toNat + x.toNat :=
      Nat.mod_eq_of_lt (by omega)
    rw [hmod]
    omega

end Block

namespace Memory

variable {m m' : Memory} {a b x : Address} {v w : BitVec 64}

theorem write_of_not_inBlock (h : ¬ InBlock a 8 x) : m.write a v x = m x := if_neg h

theorem write_of_inBlock (h : InBlock a 8 x) :
    m.write a v x = v.extractLsb' (8 * (x - a).toNat) 8 := if_pos h

/-- The byte `i` of a word that has been written. -/
theorem write_add (m : Memory) (a : Address) (v : BitVec 64) {i : ℕ} (hi : i < 8) :
    m.write a v (a + BitVec.ofNat 64 i) = v.extractLsb' (8 * i) 8 := by
  rw [write_of_inBlock (inBlock_add a hi (by omega)), toNat_add_sub a (by omega)]

theorem read_congr (h : ∀ x, InBlock a 8 x → m x = m' x) : m.read a = m'.read a := by
  have hbyte (i : ℕ) (hi : i < 8) : m (a + BitVec.ofNat 64 i) = m' (a + BitVec.ofNat 64 i) :=
    h _ (inBlock_add a hi (by omega))
  have h0 := hbyte 0 (by omega)
  rw [BitVec.add_zero] at h0
  simp only [read]
  rw [h0, hbyte 1 (by omega), hbyte 2 (by omega), hbyte 3 (by omega), hbyte 4 (by omega),
    hbyte 5 (by omega), hbyte 6 (by omega), hbyte 7 (by omega)]

theorem read_of_bytes (h : ∀ i < 8, m (a + BitVec.ofNat 64 i) = v.extractLsb' (8 * i) 8) :
    m.read a = v := by
  have h0 := h 0 (by omega)
  rw [BitVec.add_zero] at h0
  simp only [read]
  rw [h0, h 1 (by omega), h 2 (by omega), h 3 (by omega), h 4 (by omega), h 5 (by omega),
    h 6 (by omega), h 7 (by omega)]
  rw [BitVec.extractLsb'_append_extractLsb'_eq_extractLsb' (by norm_num),
    BitVec.extractLsb'_append_extractLsb'_eq_extractLsb' (by norm_num),
    BitVec.extractLsb'_append_extractLsb'_eq_extractLsb' (by norm_num),
    BitVec.extractLsb'_append_extractLsb'_eq_extractLsb' (by norm_num),
    BitVec.extractLsb'_append_extractLsb'_eq_extractLsb' (by norm_num),
    BitVec.extractLsb'_append_extractLsb'_eq_extractLsb' (by norm_num),
    BitVec.extractLsb'_append_extractLsb'_eq_extractLsb' (by norm_num)]
  exact BitVec.extractLsb'_eq_self

@[simp] theorem read_write_self (m : Memory) (a : Address) (v : BitVec 64) :
    (m.write a v).read a = v :=
  read_of_bytes fun _ hi => write_add m a v hi

theorem read_write_of_separate (h : Separate a 8 b 8) : (m.write b v).read a = m.read a :=
  read_congr fun _ hx => write_of_not_inBlock (h _ hx)

theorem writeBytes_of_ne {bytes : List (Address × BitVec 8)} (h : ∀ p ∈ bytes, p.1 ≠ x) :
    m.writeBytes bytes x = m x := by
  induction bytes generalizing m with
  | nil => rfl
  | cons p bytes ih =>
      obtain ⟨hp, hbytes⟩ := List.forall_mem_cons.1 h
      rw [writeBytes, List.foldl_cons]
      exact (ih hbytes).trans (Function.update_of_ne hp.symm _ m)

end Memory

end Foundation
