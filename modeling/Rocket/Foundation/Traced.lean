import Mathlib.Data.Nat.Notation
import Mathlib.Data.List.Basic
import Mathlib.Order.Lattice

/-!
# Computations that record their accesses

A `Traced ε α` computation makes accesses of type `ε`, recorded in order, and
either yields a value or stops at an access that has no meaning. The record is
kept also when the computation stops, so `OnLog P x` says that all accesses
made by `x`, up to and including the one it may stop at, satisfy `P`.

`search` looks for the first position at which a probe succeeds. What it yields
and which accesses it makes is said in terms of the single probes.
-/

namespace Foundation

/-- A computation with the record of its accesses. `value` is `none` when the
computation stops at the last recorded access. -/
structure Traced (ε α : Type*) where
  log : List ε
  value : Option α

namespace Traced

universe u v

variable {ε : Type u} {α β : Type v}

/-- Make the access `e`, which has the given meaning. -/
def access (e : ε) (value : Option α) : Traced ε α := ⟨[e], value⟩

/-- A step that makes no access, and may have no meaning. -/
def lift (value : Option α) : Traced ε α := ⟨[], value⟩

def pure (a : α) : Traced ε α := ⟨[], some a⟩

def bind (x : Traced ε α) (f : α → Traced ε β) : Traced ε β :=
  match x.value with
  | none => ⟨x.log, none⟩
  | some a => ⟨x.log ++ (f a).log, (f a).value⟩

instance : Monad (Traced ε) where
  pure := pure
  bind := bind

/-- All accesses made by `x` satisfy `P`. -/
def OnLog (P : ε → Prop) (x : Traced ε α) : Prop := ∀ e ∈ x.log, P e

@[simp] theorem value_access (e : ε) (value : Option α) :
    (access e value).value = value := rfl

@[simp] theorem value_lift (value : Option α) : (lift value : Traced ε α).value = value := rfl

@[simp] theorem value_pure (a : α) : (Pure.pure a : Traced ε α).value = some a := rfl

@[simp] theorem value_bind (x : Traced ε α) (f : α → Traced ε β) :
    (x >>= f).value = x.value.bind fun a => (f a).value := by
  cases h : x.value with
  | none => simp [Bind.bind, bind, h]
  | some a => simp [Bind.bind, bind, h]

@[simp] theorem onLog_access (P : ε → Prop) (e : ε) (value : Option α) :
    OnLog P (access e value) ↔ P e := by
  simp [OnLog, access]

@[simp] theorem onLog_lift (P : ε → Prop) (value : Option α) :
    OnLog P (lift value : Traced ε α) := by
  intro e he
  cases he

@[simp] theorem onLog_pure (P : ε → Prop) (a : α) :
    OnLog P (Pure.pure a : Traced ε α) := by
  intro e he
  cases he

/-- The accesses of a sequence are those of its first part and, when that part
yields a value, those of the rest. -/
@[simp] theorem onLog_bind (P : ε → Prop) (x : Traced ε α) (f : α → Traced ε β) :
    OnLog P (x >>= f) ↔ OnLog P x ∧ ∀ a, x.value = some a → OnLog P (f a) := by
  cases h : x.value with
  | none => simp [OnLog, Bind.bind, bind, h]
  | some a =>
      simp [OnLog, Bind.bind, bind, h, or_imp, forall_and]

/-- A computation behind a guard makes its accesses when the guard lets it
through. -/
theorem onLog_guard (P : ε → Prop) (c : Prop) [Decidable c] (a : α) (x : Traced ε α) :
    OnLog P (if c then Pure.pure a else x) ↔ (¬ c → OnLog P x) := by
  split_ifs with hc <;> simp [hc]

theorem value_ite (c : Prop) [Decidable c] (x y : Traced ε α) :
    (if c then x else y).value = if c then x.value else y.value := by
  split_ifs <;> rfl

theorem value_guard_eq_some_iff (c : Prop) [Decidable c] (x : Traced ε (Option α)) (a : α) :
    (if c then Pure.pure none else x).value = some (some a) ↔ ¬ c ∧ x.value = some (some a) := by
  split_ifs with hc <;> simp [hc]

theorem isSome_guard_iff (c : Prop) [Decidable c] (a : α) (x : Traced ε α) :
    (if c then Pure.pure a else x).value.isSome ↔ (¬ c → x.value.isSome) := by
  split_ifs with hc <;> simp [hc]

/-- Probe the positions `i`, `i + 1`, … until one succeeds, at most `n` of
them. -/
def search (probe : ℕ → Traced ε (Option α)) : ℕ → ℕ → Traced ε (Option α)
  | 0, _ => Pure.pure none
  | n + 1, i =>
      probe i >>= fun r =>
        match r with
        | some a => Pure.pure (some a)
        | none => search probe n (i + 1)

section Search

variable {probe : ℕ → Traced ε (Option α)}

/-- The first successful probe from the position `i` on is the one at `k`, and
it yields `a`. -/
structure FirstAt (probe : ℕ → Traced ε (Option α)) (i k : ℕ) (a : α) : Prop where
  le : i ≤ k
  found : (probe k).value = some (some a)
  before : ∀ l, i ≤ l → l < k → (probe l).value = some none

theorem FirstAt.here {i : ℕ} {a : α} (h : (probe i).value = some (some a)) :
    FirstAt probe i i a :=
  ⟨le_rfl, h, fun _ hl hlt => absurd hl (Nat.not_le_of_lt hlt)⟩

theorem firstAt_succ_iff {i k : ℕ} {a : α} (h : (probe i).value = some none) :
    FirstAt probe (i + 1) k a ↔ FirstAt probe i k a := by
  constructor
  · rintro ⟨hle, hfound, hbefore⟩
    refine ⟨by omega, hfound, fun l hl hlt => ?_⟩
    rcases Nat.eq_or_lt_of_le hl with rfl | hgt
    · exact h
    · exact hbefore l hgt hlt
  · rintro ⟨hle, hfound, hbefore⟩
    refine ⟨?_, hfound, fun l hl hlt => hbefore l (by omega) hlt⟩
    rcases Nat.eq_or_lt_of_le hle with rfl | hgt
    · rw [h] at hfound
      cases hfound
    · exact hgt

theorem FirstAt.eq_of_found {i k : ℕ} {a b : α} (h : FirstAt probe i k a)
    (hi : (probe i).value = some (some b)) : k = i ∧ a = b := by
  have hki : k = i := by
    by_contra hne
    have hnone := h.before i le_rfl (lt_of_le_of_ne h.le (Ne.symm hne))
    rw [hi] at hnone
    cases hnone
  subst hki
  have heq := h.found
  rw [hi] at heq
  cases heq
  exact ⟨rfl, rfl⟩

theorem FirstAt.ne_none {i k : ℕ} {a : α} (h : FirstAt probe i k a) :
    (probe i).value ≠ none := by
  intro hnone
  rcases Nat.eq_or_lt_of_le h.le with rfl | hlt
  · rw [h.found] at hnone
    cases hnone
  · rw [h.before i le_rfl hlt] at hnone
    cases hnone

theorem value_search_eq_some_iff (n i : ℕ) (a : α) :
    (search probe n i).value = some (some a) ↔ ∃ k, k < i + n ∧ FirstAt probe i k a := by
  induction n generalizing i with
  | zero =>
      simp only [search, value_pure, Option.some.injEq, Nat.add_zero]
      constructor
      · intro h
        cases h
      · rintro ⟨k, hk, hfirst⟩
        exact absurd hfirst.le (Nat.not_le_of_lt hk)
  | succ n ih =>
      rw [search, value_bind]
      cases h : (probe i).value with
      | none =>
          rw [Option.bind_none]
          constructor
          · intro hnone
            cases hnone
          · rintro ⟨k, _, hfirst⟩
            exact absurd h hfirst.ne_none
      | some r =>
          rw [Option.bind_some]
          cases r with
          | none =>
              rw [ih]
              simp only [firstAt_succ_iff h, Nat.add_assoc, Nat.add_comm 1 n]
          | some b =>
              rw [value_pure, Option.some.injEq, Option.some.injEq]
              constructor
              · rintro rfl
                exact ⟨i, by omega, .here h⟩
              · rintro ⟨k, _, hfirst⟩
                exact (hfirst.eq_of_found h).2.symm

theorem value_search_eq_none_iff (n i : ℕ) :
    (search probe n i).value = some none ↔
      ∀ k, i ≤ k → k < i + n → (probe k).value = some none := by
  induction n generalizing i with
  | zero =>
      simp only [search, value_pure, true_iff]
      intro k hik hki
      omega
  | succ n ih =>
      have hsplit : (∀ k, i ≤ k → k < i + (n + 1) → (probe k).value = some none) ↔
          (probe i).value = some none ∧
            ∀ k, i + 1 ≤ k → k < i + 1 + n → (probe k).value = some none := by
        constructor
        · intro h
          exact ⟨h i le_rfl (by omega), fun k hk hlt => h k (by omega) (by omega)⟩
        · rintro ⟨hi, hrest⟩ k hk hlt
          rcases Nat.eq_or_lt_of_le hk with rfl | hgt
          · exact hi
          · exact hrest k hgt (by omega)
      rw [hsplit, ← ih, search, value_bind]
      cases h : (probe i).value with
      | none => simp
      | some r => cases r <;> simp

/-- The search has a result when the probes up to the first one that does not fail have one. -/
theorem isSome_search_iff (n i : ℕ) :
    (search probe n i).value.isSome ↔
      ∀ k, i ≤ k → k < i + n → (∀ l, i ≤ l → l < k → (probe l).value = some none) →
        (probe k).value.isSome := by
  induction n generalizing i with
  | zero =>
      simp only [search, value_pure, Option.isSome_some, true_iff]
      intro k hik hki
      omega
  | succ n ih =>
      rw [search, value_bind]
      constructor
      · intro h k hk hlt hbefore
        rcases Nat.eq_or_lt_of_le hk with rfl | hgt
        · exact Option.isSome_of_isSome_bind h
        · rw [hbefore i le_rfl hgt, Option.bind_some, ih] at h
          exact h k hgt (by omega) fun l hl hlk => hbefore l (by omega) hlk
      · intro h
        obtain ⟨r, hr⟩ := Option.isSome_iff_exists.1
          (h i le_rfl (by omega) fun l hl hlt => absurd hl (Nat.not_le_of_lt hlt))
        rw [hr, Option.bind_some]
        cases r with
        | some a => rfl
        | none =>
            refine (ih (i + 1)).2 fun k hk hlt hbefore => ?_
            refine h k (by omega) (by omega) fun l hl hlk => ?_
            rcases Nat.eq_or_lt_of_le hl with rfl | hgt
            · exact hr
            · exact hbefore l hgt hlk

/-- The search makes the accesses of the probes up to the first one that does
not fail. -/
theorem onLog_search_iff (P : ε → Prop) (n i : ℕ) :
    OnLog P (search probe n i) ↔
      ∀ k, i ≤ k → k < i + n → (∀ l, i ≤ l → l < k → (probe l).value = some none) →
        OnLog P (probe k) := by
  induction n generalizing i with
  | zero =>
      simp only [search, onLog_pure, true_iff]
      intro k hik hki
      omega
  | succ n ih =>
      rw [search, onLog_bind]
      constructor
      · rintro ⟨hi, hrest⟩ k hk hlt hbefore
        rcases Nat.eq_or_lt_of_le hk with rfl | hgt
        · exact hi
        · have hnone := hbefore i le_rfl hgt
          exact (ih (i + 1)).1 (hrest none hnone) k hgt (by omega)
            fun l hl hlk => hbefore l (by omega) hlk
      · intro h
        refine ⟨h i le_rfl (by omega) fun l hl hlt => absurd hl (Nat.not_le_of_lt hlt), ?_⟩
        intro r hr
        cases r with
        | some a => exact onLog_pure P _
        | none =>
            refine (ih (i + 1)).2 fun k hk hlt hbefore => ?_
            refine h k (by omega) (by omega) fun l hl hlk => ?_
            rcases Nat.eq_or_lt_of_le hl with rfl | hgt
            · exact hr
            · exact hbefore l hgt hlk

end Search

end Traced

end Foundation
