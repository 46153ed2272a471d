import Mathlib.Data.Int.Basic
import Mathlib.Tactic.NormNum

/-!
# 32-bit words

`wrap` is the value an `int` expression has on a two's complement machine:
every result is reduced into `[-2^31, 2^31)`. The network form of a word is its
four bytes, the most significant one first; `wordBytes` and `bytesWord` convert
between the two and are inverse to each other.
-/

namespace Foundation

/-- The value of an `int` expression: reduced modulo `2^32` into
`[-2^31, 2^31)`. -/
def wrap (x : ℤ) : ℤ := x.bmod (2 ^ 32)

theorem wrap_eq_self {x : ℤ} (hlo : -2 ^ 31 ≤ x) (hhi : x < 2 ^ 31) : wrap x = x :=
  Int.bmod_eq_of_le_mul_two (by omega) (by omega)

theorem wrap_natCast_add {m n : ℕ} (h : m + n < 2 ^ 31) : wrap (m + n) = (m + n : ℕ) := by
  rw [wrap_eq_self (by omega) (by omega)]
  push_cast
  rfl

/-- Past the largest `int` the value starts again at the smallest one. -/
theorem wrap_eq_sub {x : ℤ} (hlo : 2 ^ 31 ≤ x) (hhi : x < 2 ^ 32 + 2 ^ 31) :
    wrap x = x - 2 ^ 32 := by
  have h : wrap (x - 2 ^ 32) = x - 2 ^ 32 := wrap_eq_self (by omega) (by omega)
  rw [← h, wrap, wrap]
  exact (Int.sub_bmod_right x (2 ^ 32)).symm

/-- Below the smallest `int` the value starts again at the largest one. -/
theorem wrap_eq_add {x : ℤ} (hlo : -2 ^ 32 - 2 ^ 31 ≤ x) (hhi : x < -2 ^ 31) :
    wrap x = x + 2 ^ 32 := by
  have h : wrap (x + 2 ^ 32) = x + 2 ^ 32 := wrap_eq_self (by omega) (by omega)
  rw [← h, wrap, wrap]
  exact (Int.add_bmod_right x (2 ^ 32)).symm

theorem wrap_le {x : ℤ} (hx : 0 ≤ x) : wrap x ≤ x := by
  rw [wrap, Int.bmod_def]
  split_ifs <;> omega

/-- The value of an `int` that is converted to `size_t`. -/
def sizeT (x : ℤ) : ℤ := x % 2 ^ 64

theorem sizeT_eq_self {x : ℤ} (hlo : 0 ≤ x) (hhi : x < 2 ^ 64) : sizeT x = x :=
  Int.emod_eq_of_lt hlo hhi

/-- A negative `int` becomes one of the largest values. -/
theorem sizeT_eq_add {x : ℤ} (hlo : -2 ^ 64 ≤ x) (hhi : x < 0) : sizeT x = x + 2 ^ 64 := by
  rw [sizeT, ← Int.add_emod_right, Int.emod_eq_of_lt (by omega) (by omega)]

/-- The network form of a word: four bytes, the most significant first. -/
def wordBytes (x : Int32) : List UInt8 :=
  [UInt8.ofBitVec (x.toBitVec.extractLsb' 24 8), UInt8.ofBitVec (x.toBitVec.extractLsb' 16 8),
    UInt8.ofBitVec (x.toBitVec.extractLsb' 8 8), UInt8.ofBitVec (x.toBitVec.extractLsb' 0 8)]

/-- The word with the given network form. -/
def bytesWord (a b c d : UInt8) : Int32 :=
  Int32.ofBitVec (a.toBitVec ++ b.toBitVec ++ c.toBitVec ++ d.toBitVec)

@[simp] theorem length_wordBytes (x : Int32) : (wordBytes x).length = 4 := rfl

theorem extractLsb'_append_bytes (x : BitVec 32) :
    x.extractLsb' 24 8 ++ x.extractLsb' 16 8 ++ x.extractLsb' 8 8 ++ x.extractLsb' 0 8 = x := by
  rw [BitVec.extractLsb'_append_extractLsb'_eq_extractLsb' (by norm_num),
    BitVec.extractLsb'_append_extractLsb'_eq_extractLsb' (by norm_num),
    BitVec.extractLsb'_append_extractLsb'_eq_extractLsb' (by norm_num)]
  exact BitVec.extractLsb'_eq_self

theorem bytesWord_wordBytes (x : Int32) :
    bytesWord (UInt8.ofBitVec (x.toBitVec.extractLsb' 24 8))
      (UInt8.ofBitVec (x.toBitVec.extractLsb' 16 8))
      (UInt8.ofBitVec (x.toBitVec.extractLsb' 8 8))
      (UInt8.ofBitVec (x.toBitVec.extractLsb' 0 8)) = x := by
  have h := extractLsb'_append_bytes x.toBitVec
  simp only [bytesWord]
  rw [h, Int32.ofBitVec_toBitVec]

theorem extractLsb'_bytes (a b c d : BitVec 8) :
    (a ++ b ++ c ++ d).extractLsb' 24 8 = a ∧ (a ++ b ++ c ++ d).extractLsb' 16 8 = b ∧
      (a ++ b ++ c ++ d).extractLsb' 8 8 = c ∧ (a ++ b ++ c ++ d).extractLsb' 0 8 = d := by
  refine ⟨?_, ?_, ?_, BitVec.extractLsb'_append_eq_right⟩
  · rw [BitVec.extractLsb'_append_eq_of_le (by norm_num),
      BitVec.extractLsb'_append_eq_of_le (by norm_num)]
    exact BitVec.extractLsb'_append_eq_left
  · rw [BitVec.extractLsb'_append_eq_of_le (by norm_num),
      BitVec.extractLsb'_append_eq_of_le (by norm_num)]
    exact BitVec.extractLsb'_append_eq_right
  · rw [BitVec.extractLsb'_append_eq_of_le (by norm_num)]
    exact BitVec.extractLsb'_append_eq_right

theorem wordBytes_bytesWord (a b c d : UInt8) : wordBytes (bytesWord a b c d) = [a, b, c, d] := by
  obtain ⟨ha, hb, hc, hd⟩ :=
    extractLsb'_bytes a.toBitVec b.toBitVec c.toBitVec d.toBitVec
  simp only [wordBytes, bytesWord, Int32.toBitVec_ofBitVec]
  rw [ha, hb, hc, hd]

theorem toInt_ofNat_of_lt {n : ℕ} (h : n < 2 ^ 31) : (Int32.ofNat n).toInt = n := by
  rw [Int32.toInt_ofNat']
  exact wrap_eq_self (by omega) (by exact_mod_cast h)

theorem eq_ofNat_of_toInt {x : Int32} {n : ℕ} (h : x.toInt = n) : x = .ofNat n := by
  have hlt : n < 2 ^ 31 := by
    have hhi := x.toInt_lt
    omega
  exact Int32.toInt_inj.1 (h.trans (toInt_ofNat_of_lt hlt).symm)

theorem ofNat_injOn {m n : ℕ} (hm : m < 2 ^ 31) (hn : n < 2 ^ 31)
    (h : Int32.ofNat m = Int32.ofNat n) : m = n := by
  have hint : ((m : ℕ) : ℤ) = n := by rw [← toInt_ofNat_of_lt hm, h, toInt_ofNat_of_lt hn]
  exact_mod_cast hint

end Foundation
