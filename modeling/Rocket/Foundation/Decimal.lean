import Mathlib.Data.List.Induction
import Mathlib.Tactic.Ring

/-!
# Decimal numbers

A decimal number is a text of the bytes `'0'` to `'9'`, the highest digit first. `decimalValue`
reads it, and `decimalText` is the text without leading zeros that a number is written as.
-/

namespace Foundation

/-- `'0' <= c && c <= '9'` -/
def IsDigit (c : UInt8) : Prop := 48 ≤ c ∧ c ≤ 57

instance : DecidablePred IsDigit := fun _ => inferInstanceAs (Decidable (_ ∧ _))

theorem isDigit_iff {c : UInt8} : IsDigit c ↔ 48 ≤ c.toNat ∧ c.toNat ≤ 57 :=
  and_congr UInt8.le_iff_toNat_le UInt8.le_iff_toNat_le

theorem IsDigit.toNat {c : UInt8} (h : IsDigit c) : 48 ≤ c.toNat ∧ c.toNat ≤ 57 :=
  isDigit_iff.1 h

theorem isDigit_ofNat {d : ℕ} (h : d < 10) : IsDigit (UInt8.ofNat (48 + d)) := by
  rw [isDigit_iff, UInt8.toNat_ofNat']
  omega

def decimalValue (text : List UInt8) : ℕ := text.foldl (fun v c => 10 * v + (c.toNat - 48)) 0

@[simp] theorem decimalValue_nil : decimalValue [] = 0 := rfl

theorem decimalValue_append_singleton (text : List UInt8) (c : UInt8) :
    decimalValue (text ++ [c]) = 10 * decimalValue text + (c.toNat - 48) := by
  rw [decimalValue, List.foldl_append]
  rfl

theorem decimalValue_append (a b : List UInt8) :
    decimalValue (a ++ b) = decimalValue a * 10 ^ b.length + decimalValue b := by
  induction b using List.reverseRecOn with
  | nil => simp
  | append_singleton b c ih =>
      rw [← List.append_assoc, decimalValue_append_singleton, ih, decimalValue_append_singleton,
        List.length_append, List.length_singleton]
      ring

theorem decimalValue_append_cons (a : List UInt8) (c : UInt8) (b : List UInt8) :
    decimalValue (a ++ c :: b) =
      (10 * decimalValue a + (c.toNat - 48)) * 10 ^ b.length + decimalValue b := by
  rw [List.append_cons, decimalValue_append, decimalValue_append_singleton]

@[simp] theorem decimalValue_zeros (m : ℕ) : decimalValue (List.replicate m 48) = 0 := by
  induction m with
  | zero => rfl
  | succ m ih =>
      rw [List.replicate_succ', decimalValue_append_singleton, ih]
      rfl

theorem decimalValue_nines (m : ℕ) : decimalValue (List.replicate m 57) + 1 = 10 ^ m := by
  induction m with
  | zero => rfl
  | succ m ih =>
      rw [List.replicate_succ', decimalValue_append_singleton, pow_succ, ← ih]
      have hnine : (57 : UInt8).toNat = 57 := rfl
      omega

/-- A digit goes up and the nines behind it become zeros: this is the next number iff the
digit goes up by one. -/
theorem decimalValue_carry_iff (a : List UInt8) {c c' : UInt8} (m : ℕ) (hc : IsDigit c)
    (hc' : IsDigit c') :
    decimalValue (a ++ c' :: List.replicate m 48) =
      decimalValue (a ++ c :: List.replicate m 57) + 1 ↔ c'.toNat = c.toNat + 1 := by
  have hlo := hc.toNat.1
  have hlo' := hc'.toNat.1
  rw [decimalValue_append_cons, decimalValue_append_cons, decimalValue_zeros, Nat.add_assoc,
    decimalValue_nines, List.length_replicate, List.length_replicate, Nat.add_zero,
    ← Nat.succ_mul, Nat.mul_left_inj (Nat.pow_pos (by norm_num)).ne']
  omega

def decimalText (n : ℕ) : List UInt8 := (Nat.toDigits 10 n).map fun c => UInt8.ofNat c.toNat

theorem decimalText_ne_nil (n : ℕ) : decimalText n ≠ [] :=
  List.map_eq_nil_iff.not.2 Nat.toDigits_ne_nil

theorem toNat_of_mem_toDigits {n : ℕ} {c : Char} (h : c ∈ Nat.toDigits 10 n) :
    48 ≤ c.toNat ∧ c.toNat ≤ 57 := by
  have hdigit := Nat.isDigit_of_mem_toDigits (by norm_num) (by norm_num) h
  simpa [Char.isDigit, Char.le_def, UInt32.le_iff_toNat_le] using hdigit

theorem isDigit_of_mem_decimalText {n : ℕ} {c : UInt8} (h : c ∈ decimalText n) : IsDigit c := by
  obtain ⟨d, hd, rfl⟩ := List.mem_map.1 h
  obtain ⟨hlo, hhi⟩ := toNat_of_mem_toDigits hd
  rw [show d.toNat = 48 + (d.toNat - 48) by omega]
  exact isDigit_ofNat (by omega)

theorem decimalValue_decimalText (n : ℕ) : decimalValue (decimalText n) = n := by
  have hfold : ∀ (l : List Char) (v : ℕ), (∀ c ∈ l, c.toNat ≤ 57) →
      (l.map fun c => UInt8.ofNat c.toNat).foldl (fun v c => 10 * v + (c.toNat - 48)) v =
        Nat.ofDigitChars 10 l v := by
    intro l
    induction l with
    | nil => simp
    | cons c l ih =>
        intro v h
        obtain ⟨hc, hl⟩ := List.forall_mem_cons.1 h
        have hbyte : (UInt8.ofNat c.toNat).toNat = c.toNat :=
          UInt8.toNat_ofNat_of_lt' (by simp only [UInt8.size]; omega)
        rw [List.map_cons, List.foldl_cons, ih _ hl, hbyte, Nat.ofDigitChars_cons]
        rfl
  rw [decimalValue, decimalText, hfold _ _ fun c hc => (toNat_of_mem_toDigits hc).2]
  exact Nat.ofDigitChars_toDigits (by norm_num) (by norm_num)

end Foundation
