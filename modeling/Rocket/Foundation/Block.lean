import Mathlib.Data.List.Basic
import Mathlib.Data.List.TakeDrop
import Mathlib.Tactic.Linarith

/-!
# Blocks of a vector

A vector is read and written in blocks that start at a signed offset, the way
a C program reads `&v[k]` and copies with `memcpy`. Every access is checked
against the vector: `readBlock`, `readCell` and `copyBlock` return `none` when
a cell they need lies outside.

`Cursor v k rest` says what is left of `v` from the offset `k` on. Reading the
next block advances the cursor, so a parser is followed block by block without
index arithmetic.
-/

namespace Foundation

/-- The `n` cells of `v` from the offset `k` on. -/
def readBlock {α : Type*} (v : List α) (k n : ℤ) : Option (List α) :=
  if 0 ≤ k ∧ 0 ≤ n ∧ k + n ≤ v.length then
    some ((v.drop k.toNat).take n.toNat)
  else none

/-- The cell of `v` at the offset `k`. -/
def readCell {α : Type*} (v : List α) (k : ℤ) : Option α :=
  if 0 ≤ k then v[k.toNat]? else none

/-- `dst` with the `n` cells of `src` from `j` on copied over its own cells
from `i` on. -/
def copyBlock {α : Type*} (dst : List α) (i : ℤ) (src : List α) (j n : ℤ) :
    Option (List α) :=
  (readBlock src j n).bind fun block =>
    if 0 ≤ i ∧ i + n ≤ dst.length then
      some (dst.take i.toNat ++ block ++ dst.drop (i.toNat + block.length))
    else none

theorem readBlock_eq_some_iff {α : Type*} (v : List α) (k n : ℤ) (block : List α) :
    readBlock v k n = some block ↔
      (0 ≤ k ∧ 0 ≤ n ∧ k + n ≤ v.length) ∧
        (v.drop k.toNat).take n.toNat = block := by
  unfold readBlock
  split_ifs with h <;> simp [h]

theorem readBlock_isSome_iff {α : Type*} (v : List α) (k n : ℤ) :
    (readBlock v k n).isSome ↔ 0 ≤ k ∧ 0 ≤ n ∧ k + n ≤ v.length := by
  unfold readBlock
  split_ifs with h <;> simp [h]

theorem length_of_readBlock {α : Type*} {v : List α} {k n : ℤ} {block : List α}
    (h : readBlock v k n = some block) : (block.length : ℤ) = n := by
  obtain ⟨⟨hk, hn, hle⟩, rfl⟩ := (readBlock_eq_some_iff v k n block).1 h
  rw [List.length_take, List.length_drop]
  omega

theorem readBlock_append {α : Type*} (pre mid post : List α) :
    readBlock (pre ++ mid ++ post) pre.length mid.length = some mid := by
  rw [readBlock_eq_some_iff]
  refine ⟨⟨by omega, by omega, ?_⟩, ?_⟩
  · simp only [List.length_append]
    omega
  · simp

theorem readCell_eq_some_iff {α : Type*} (v : List α) (k : ℤ) (a : α) :
    readCell v k = some a ↔ 0 ≤ k ∧ v[k.toNat]? = some a := by
  unfold readCell
  split_ifs with h <;> simp [h]

@[simp] theorem readCell_natCast {α : Type*} (v : List α) (k : ℕ) :
    readCell v k = v[k]? := by
  simp [readCell]

theorem length_copyBlock {α : Type*} {dst src v : List α} {i j n : ℤ}
    (h : copyBlock dst i src j n = some v) : v.length = dst.length := by
  rcases Option.bind_eq_some_iff.1 h with ⟨block, hread, hcopy⟩
  have hlen := length_of_readBlock hread
  rcases Option.ite_none_right_eq_some.1 hcopy with ⟨hfit, hv⟩
  cases hv
  simp only [List.length_append, List.length_take, List.length_drop]
  omega

theorem copyBlock_append {α : Type*} (pre old post src block : List α) (j n : ℤ)
    (hread : readBlock src j n = some block) (hold : old.length = block.length) :
    copyBlock (pre ++ old ++ post) pre.length src j n =
      some (pre ++ block ++ post) := by
  have hn : (block.length : ℤ) = n := length_of_readBlock hread
  have hfit : (0 : ℤ) ≤ pre.length ∧
      pre.length + n ≤ (pre ++ old ++ post).length := by
    simp only [List.length_append]
    omega
  rw [copyBlock, hread, Option.bind_some, if_pos hfit, ← hold]
  simp

theorem copyBlock_zero {α : Type*} (dst src block : List α) (j n : ℤ)
    (hread : readBlock src j n = some block) (hfit : block.length ≤ dst.length) :
    copyBlock dst 0 src j n = some (block ++ dst.drop block.length) := by
  have h := copyBlock_append [] (dst.take block.length) (dst.drop block.length) src block j n
    hread (by simp [hfit])
  simpa using h

/-- From the offset `k` on, the cells of `v` are `rest`. -/
structure Cursor {α : Type*} (v : List α) (k : ℤ) (rest : List α) : Prop where
  nonneg : 0 ≤ k
  le_length : k ≤ v.length
  drop_eq : v.drop k.toNat = rest

namespace Cursor

variable {α : Type*} {v : List α} {k : ℤ}

theorem of_append (pre rest : List α) : Cursor (pre ++ rest) pre.length rest :=
  ⟨by omega, by simp, by simp⟩

theorem length_eq {rest : List α} (h : Cursor v k rest) :
    (v.length : ℤ) = k + rest.length := by
  have hnonneg := h.nonneg
  have hle := h.le_length
  rw [← h.drop_eq, List.length_drop]
  omega

theorem advance {l rest : List α} (h : Cursor v k (l ++ rest)) {j : ℤ}
    (hj : j = k + l.length) : Cursor v j rest := by
  have hlen := h.length_eq
  have hnonneg := h.nonneg
  rw [List.length_append] at hlen
  refine ⟨by omega, by omega, ?_⟩
  have hnat : j.toNat = k.toNat + l.length := by omega
  rw [hnat, ← List.drop_drop, h.drop_eq, List.drop_left]

theorem readBlock_eq {mid rest : List α} (h : Cursor v k (mid ++ rest)) :
    readBlock v k mid.length = some mid := by
  have hlen := h.length_eq
  rw [List.length_append] at hlen
  rw [readBlock_eq_some_iff]
  refine ⟨⟨h.nonneg, by omega, by omega⟩, ?_⟩
  simp [h.drop_eq]

theorem exists_of_readBlock {rest block : List α} {n : ℤ} (h : Cursor v k rest)
    (hread : readBlock v k n = some block) :
    ∃ rest', rest = block ++ rest' ∧ Cursor v (k + n) rest' := by
  obtain ⟨⟨hk, hn, hle⟩, rfl⟩ := (readBlock_eq_some_iff v k n block).1 hread
  have hsplit : rest = rest.take n.toNat ++ rest.drop n.toNat := (List.take_append_drop ..).symm
  have hlen := h.length_eq
  refine ⟨rest.drop n.toNat, by rw [h.drop_eq]; exact hsplit, ?_⟩
  rw [hsplit] at h
  refine h.advance ?_
  rw [List.length_take]
  omega

theorem exists_of_readCell {a : α} {rest : List α} (h : Cursor v k rest)
    (hread : readCell v k = some a) : ∃ rest', rest = a :: rest' ∧ Cursor v (k + 1) rest' := by
  obtain ⟨hk, hcell⟩ := (readCell_eq_some_iff v k a).1 hread
  have hhead : rest[0]? = some a := by
    rw [← h.drop_eq, List.getElem?_drop, Nat.add_zero]
    exact hcell
  obtain ⟨rest', rfl⟩ : ∃ rest', rest = a :: rest' := by
    cases rest with
    | nil => cases hhead
    | cons b rest' =>
        cases hhead
        exact ⟨rest', rfl⟩
  exact ⟨rest', rfl, h.advance (l := [a]) rfl⟩

theorem readCell_eq {a : α} {rest : List α} (h : Cursor v k (a :: rest)) :
    readCell v k = some a := by
  rw [readCell_eq_some_iff]
  refine ⟨h.nonneg, ?_⟩
  have hhead : (v.drop k.toNat)[0]? = some a := by simp [h.drop_eq]
  simpa using hhead

end Cursor

end Foundation
