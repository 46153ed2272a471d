import Rocket.Net.Coder.Decode

/-!
# Text fields

A text field of a packet is a length and the bytes of the text. `TextAt` says
that such a field stands at an offset, lies before the write index, and fits its
array with a terminator. This is what `loadField` needs to stay in bounds, and
then it reads the field.
-/

namespace Rocket

open Foundation

namespace TinyPBCoder

/-- The text field `x` stands at `k`. It ends before `w`, and its text is
terminated in an array of `cap` bytes. -/
structure TextAt (temp : Bytes) (w : ℕ) (k : ℤ) (cap : ℕ) (x : Field) : Prop where
  len_eq : (readBlock temp k 4).map getInt32FromNetByte = some x.len
  nonneg : 0 ≤ x.len.toInt
  le_cap : x.len.toInt ≤ cap
  begin_lt : k + 4 < w
  next_le : x.next ≤ w
  next_eq : x.next = k + 4 + x.len.toInt
  text_eq : ∃ bytes, readBlock temp (k + 4) x.len.toInt = some bytes ∧
    (x.len.toInt < cap ∨ 0 ∈ bytes) ∧ x.text = bytes.takeWhile (· ≠ 0)

/-- The text field `x` can be loaded at `k`: its bytes lie in the copy, and its text fits an
array of `cap` bytes and is terminated there. -/
structure LoadsAt (temp : Bytes) (k : ℤ) (cap : ℕ) (x : Field) : Prop where
  len_eq : (readBlock temp k 4).map getInt32FromNetByte = some x.len
  le_cap : x.len.toInt ≤ cap
  text_eq : ∃ bytes, readBlock temp (wrap (k + 4)) x.len.toInt = some bytes ∧
    (x.len.toInt < cap ∨ 0 ∈ bytes) ∧ x.text = bytes.takeWhile (· ≠ 0)
  next_eq : x.next = wrap (wrap (k + 4) + x.len.toInt)

section Field

variable {temp : Bytes} {r w cap : ℕ} {k : ℤ}

theorem onLog_loadInt32_iff (hr : (r : ℤ) ≤ k) :
    Traced.OnLog (Access.InBounds r w) (loadInt32 temp k) ↔ k + 4 ≤ w := by
  simp only [loadInt32, Traced.onLog_access, Access.InBounds]
  omega

theorem value_copyArray {n : ℤ} {bytes : Bytes} (hread : readBlock temp k n = some bytes)
    (hcap : n ≤ cap) :
    (copyArray temp k n cap).value =
      some (bytes ++ List.replicate (cap - bytes.length) 0) := by
  rw [copyArray, Traced.value_access, if_pos hcap, hread, Option.map_some]

/-- An array holds a terminator when the bytes copied to it leave room for one,
or contain one. -/
theorem zero_mem_array_iff {n : ℤ} {bytes : Bytes} (hread : readBlock temp k n = some bytes) :
    0 ∈ bytes ++ List.replicate (cap - bytes.length) 0 ↔ n < cap ∨ 0 ∈ bytes := by
  have hlen := length_of_readBlock hread
  rw [List.mem_append, List.mem_replicate, or_comm]
  refine or_congr_left ?_
  simp only [and_true]
  omega

theorem value_loadField_eq_some_iff {x : Field} :
    (loadField temp k cap).value = some x ↔ LoadsAt temp k cap x := by
  simp only [loadField, loadInt32, Traced.value_bind, Traced.value_access, Traced.value_pure,
    Option.bind_eq_some_iff]
  constructor
  · rintro ⟨len, hlen, array, harray, text, htext, heq⟩
    cases heq
    rw [copyArray, Traced.value_access, Option.ite_none_right_eq_some] at harray
    obtain ⟨hcap, harray⟩ := harray
    obtain ⟨bytes, hread, rfl⟩ := Option.map_eq_some_iff.1 harray
    obtain ⟨hterm, heq⟩ := Option.ite_none_right_eq_some.1 htext
    cases heq
    refine ⟨hlen, hcap, ⟨bytes, hread, (zero_mem_array_iff hread).1 hterm, ?_⟩, rfl⟩
    exact takeWhile_append_zeros _ _
  · rintro ⟨hlen, hcap, ⟨bytes, hread, hterm, htext⟩, hnext⟩
    refine ⟨x.len, hlen, _, value_copyArray hread hcap, x.text, ?_, ?_⟩
    · rw [cString, Traced.value_access, if_pos ((zero_mem_array_iff hread).2 hterm),
        takeWhile_append_zeros, htext]
    · rw [← hnext]

/-- Loading a text field and going on is defined when the field can be loaded and going on with
it is defined. -/
theorem isSome_loadField_bind_iff {α : Type} (rest : Field → Traced Access α) :
    (loadField temp k cap >>= rest).value.isSome ↔
      ∃ x, LoadsAt temp k cap x ∧ (rest x).value.isSome := by
  rw [Traced.value_bind, Option.isSome_bind, Option.any_eq_true]
  exact exists_congr fun x => and_congr_left' value_loadField_eq_some_iff

theorem TextAt.value_loadField {x : Field} (h : TextAt temp w k cap x) (hk : 0 ≤ k)
    (hint : w < 2 ^ 31) : (loadField temp k cap).value = some x := by
  obtain ⟨bytes, hread, hterm, htext⟩ := h.text_eq
  have hbegin := h.begin_lt
  have hle := h.next_le
  have hnonneg := h.nonneg
  have hnext := h.next_eq
  have hindex : wrap (k + 4) = k + 4 := wrap_eq_self (by omega) (by omega)
  have hbehind : wrap (k + 4 + x.len.toInt) = x.next :=
    (wrap_eq_self (by omega) (by omega)).trans hnext.symm
  simp only [loadField, loadInt32, cString, Traced.value_bind, Traced.value_access, h.len_eq,
    Option.bind_some, hindex, value_copyArray hread h.le_cap, Traced.value_pure, hbehind,
    if_pos ((zero_mem_array_iff hread).2 hterm), takeWhile_append_zeros, ← htext]

theorem onLog_loadField_iff (hr : (r : ℤ) ≤ k) (hint : w < 2 ^ 31) (hlen : w ≤ temp.length) :
    Traced.OnLog (Access.InBounds r w) (loadField temp k cap) ↔ ∃ x, TextAt temp w k cap x := by
  simp only [loadField, Traced.onLog_bind, onLog_loadInt32_iff hr, Traced.onLog_pure,
    implies_true, and_true]
  constructor
  · rintro ⟨hload, hrest⟩
    obtain ⟨word, hword⟩ :=
      Option.isSome_iff_exists.1 ((readBlock_isSome_iff temp k 4).2 (by omega))
    have hlenEq : (loadInt32 temp k).value = some (getInt32FromNetByte word) := by
      rw [loadInt32, Traced.value_access, hword, Option.map_some]
    obtain ⟨hcopy, htext⟩ := hrest _ hlenEq
    have hindex : wrap (k + 4) = k + 4 := wrap_eq_self (by omega) (by omega)
    rw [hindex] at hcopy htext
    simp only [copyArray, Traced.onLog_access, Access.InBounds] at hcopy
    obtain ⟨bytes, hread⟩ := Option.isSome_iff_exists.1
      ((readBlock_isSome_iff temp (k + 4) (getInt32FromNetByte word).toInt).2 (by omega))
    have hterm := htext _ (value_copyArray hread hcopy.2.2.2.2)
    simp only [cString, Traced.onLog_access, Access.InBounds, decide_eq_true_eq] at hterm
    refine ⟨⟨getInt32FromNetByte word, bytes.takeWhile (· ≠ 0),
      k + 4 + (getInt32FromNetByte word).toInt⟩, ?_⟩
    exact
      { len_eq := by rw [hword, Option.map_some]
        nonneg := hcopy.2.2.1
        le_cap := hcopy.2.2.2.2
        begin_lt := hcopy.2.1
        next_le := hcopy.2.2.2.1
        next_eq := rfl
        text_eq := ⟨bytes, hread, (zero_mem_array_iff hread).1 hterm, rfl⟩ }
  · rintro ⟨x, hx⟩
    obtain ⟨bytes, hread, hterm, htext⟩ := hx.text_eq
    have hbegin := hx.begin_lt
    have hle := hx.next_le
    have hnext := hx.next_eq
    have hindex : wrap (k + 4) = k + 4 := wrap_eq_self (by omega) (by omega)
    refine ⟨by omega, fun len hlenEq => ?_⟩
    rw [loadInt32, Traced.value_access, hx.len_eq] at hlenEq
    cases hlenEq
    rw [hindex]
    refine ⟨?_, fun array harray => ?_⟩
    · simp only [copyArray, Traced.onLog_access, Access.InBounds]
      exact ⟨by omega, hbegin, hx.nonneg, by omega, hx.le_cap⟩
    · rw [value_copyArray hread hx.le_cap] at harray
      cases harray
      simp only [cString, Traced.onLog_access, Access.InBounds, decide_eq_true_eq]
      exact (zero_mem_array_iff hread).2 hterm

/-- Loading a text field and going on stays in bounds when there is a field and
going on with it stays in bounds. -/
theorem onLog_loadField_bind_iff {α : Type} (hr : (r : ℤ) ≤ k) (hint : w < 2 ^ 31)
    (hlen : w ≤ temp.length) (rest : Field → Traced Access α) :
    Traced.OnLog (Access.InBounds r w) (loadField temp k cap >>= rest) ↔
      ∃ x, TextAt temp w k cap x ∧ Traced.OnLog (Access.InBounds r w) (rest x) := by
  rw [Traced.onLog_bind, onLog_loadField_iff hr hint hlen]
  constructor
  · rintro ⟨⟨x, hx⟩, hrest⟩
    exact ⟨x, hx, hrest x (hx.value_loadField (by omega) hint)⟩
  · rintro ⟨x, hx, hrest⟩
    refine ⟨⟨x, hx⟩, fun y hy => ?_⟩
    rw [hx.value_loadField (by omega) hint] at hy
    cases hy
    exact hrest

end Field

end TinyPBCoder

end Rocket
