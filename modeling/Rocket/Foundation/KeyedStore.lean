import Mathlib.Data.Set.Insert
import Mathlib.Logic.Function.Basic

/-!
# Stores that are looked up by a key

A store maps a key to at most one value, and every value has its key. `Stores key
store held` says that the values of the store are those of the set `held`. Inserting a
value keeps what is stored under its key already, as `std::map::insert` does; so a
value is lost if its key is taken, and no value is lost if the keys are distinct.
`StoresWithin` asks less: the values of the store are among those of `held`.

A subscript inserts the default value under a key that is absent, as `operator[]` of
`std::map` does. `valueAt` does not see the difference.
-/

namespace Foundation

variable {κ α : Type*} [DecidableEq κ] {key : α → κ} {store : κ → Option α} {held : Set α}

def insertNew (key : α → κ) (store : κ → Option α) (a : α) : κ → Option α :=
  if (store (key a)).isSome then store else Function.update store (key a) (some a)

/-- The values in the store are those in `held`. -/
def Stores (key : α → κ) (store : κ → Option α) (held : Set α) : Prop :=
  ∀ k a, store k = some a ↔ a ∈ held ∧ key a = k

namespace Stores

omit [DecidableEq κ] in
theorem empty (key : α → κ) : Stores key (fun _ => none) ∅ := by
  intro k a
  simp

omit [DecidableEq κ] in
theorem eq_none_iff (h : Stores key store held) (k : κ) :
    store k = none ↔ ∀ a ∈ held, key a ≠ k := by
  rw [Option.eq_none_iff_forall_ne_some]
  constructor
  · intro hnone a ha hk
    exact hnone a ((h k a).2 ⟨ha, hk⟩)
  · intro hnone a hstored
    obtain ⟨ha, hk⟩ := (h k a).1 hstored
    exact hnone a ha hk

theorem insertNew (h : Stores key store held) {a : α} (hnew : ∀ b ∈ held, key b ≠ key a) :
    Stores key (insertNew key store a) (insert a held) := by
  have hnone := (h.eq_none_iff (key a)).2 hnew
  intro k b
  rw [Foundation.insertNew, hnone, Option.isSome_none, if_neg (by decide)]
  by_cases hk : k = key a
  · subst hk
    rw [Function.update_self, Option.some.injEq, Set.mem_insert_iff]
    constructor
    · rintro rfl
      exact ⟨Or.inl rfl, rfl⟩
    · rintro ⟨rfl | hb, hkey⟩
      · rfl
      · exact absurd hkey (hnew b hb)
  · rw [Function.update_of_ne hk, h k b, Set.mem_insert_iff]
    constructor
    · rintro ⟨hb, hkey⟩
      exact ⟨Or.inr hb, hkey⟩
    · rintro ⟨rfl | hb, hkey⟩
      · exact absurd hkey.symm hk
      · exact ⟨hb, hkey⟩

theorem foldl_insertNew {as : List α} (h : Stores key store held) (hnodup : (as.map key).Nodup)
    (hnew : ∀ a ∈ as, ∀ b ∈ held, key b ≠ key a) :
    Stores key (as.foldl (Foundation.insertNew key) store) (held ∪ {a | a ∈ as}) := by
  induction as generalizing store held with
  | nil => simpa using h
  | cons a as ih =>
      rw [List.map_cons, List.nodup_cons] at hnodup
      obtain ⟨hhead, htail⟩ := hnodup
      have hnew' : ∀ a' ∈ as, ∀ b ∈ insert a held, key b ≠ key a' := by
        rintro a' ha' b (rfl | hb)
        · intro hkey
          exact hhead (hkey ▸ List.mem_map_of_mem ha')
        · exact hnew a' (List.mem_cons_of_mem _ ha') b hb
      have hrest := ih (h.insertNew (hnew a List.mem_cons_self)) htail hnew'
      rw [List.foldl_cons]
      convert hrest using 1
      ext b
      simp only [Set.mem_union, Set.mem_ofPred_eq, List.mem_cons, Set.mem_insert_iff]
      rw [or_left_comm, or_assoc]

theorem take (h : Stores key store held) {k : κ} {a : α} (ha : store k = some a) :
    Stores key (Function.update store k none) (held \ {a}) := by
  intro k' b
  by_cases hk : k' = k
  · subst hk
    rw [Function.update_self]
    constructor
    · intro hnone
      cases hnone
    · rintro ⟨⟨hb, hne⟩, hkey⟩
      have hb' := (h k' b).2 ⟨hb, hkey⟩
      rw [ha, Option.some.injEq] at hb'
      exact absurd hb'.symm hne
  · rw [Function.update_of_ne hk, h k' b]
    constructor
    · rintro ⟨hb, hkey⟩
      refine ⟨⟨hb, ?_⟩, hkey⟩
      rintro rfl
      exact hk (hkey.symm.trans ((h k b).1 ha).2)
    · rintro ⟨⟨hb, _⟩, hkey⟩
      exact ⟨hb, hkey⟩

end Stores

/-- Every value in the store is in `held`, and is stored under its key. -/
def StoresWithin (key : α → κ) (store : κ → Option α) (held : Set α) : Prop :=
  ∀ k a, store k = some a → a ∈ held ∧ key a = k

namespace StoresWithin

variable {held' : Set α}

omit [DecidableEq κ] in
theorem empty (key : α → κ) (held : Set α) : StoresWithin key (fun _ => none) held := nofun

omit [DecidableEq κ] in
theorem mono (h : StoresWithin key store held) (hle : held ⊆ held') :
    StoresWithin key store held' :=
  fun k a ha => ⟨hle (h k a ha).1, (h k a ha).2⟩

theorem foldl_insertNew (h : StoresWithin key store held) {as : List α}
    (has : ∀ a ∈ as, a ∈ held) :
    StoresWithin key (as.foldl (Foundation.insertNew key) store) held := by
  induction as generalizing store with
  | nil => exact h
  | cons a as ih =>
      refine ih (fun k b hb => ?_) fun b hb => has b (List.mem_cons_of_mem a hb)
      unfold Foundation.insertNew at hb
      split_ifs at hb
      · exact h k b hb
      · by_cases hk : k = key a
        · subst hk
          rw [Function.update_self] at hb
          cases hb
          exact ⟨has a List.mem_cons_self, rfl⟩
        · rw [Function.update_of_ne hk] at hb
          exact h k b hb

theorem take (h : StoresWithin key store held) (k : κ) :
    StoresWithin key (Function.update store k none) held := by
  intro k' a ha
  by_cases hk : k' = k
  · subst hk
    rw [Function.update_self] at ha
    cases ha
  · rw [Function.update_of_ne hk] at ha
    exact h k' a ha

end StoresWithin

section Subscript

variable {β : Type*} [Inhabited β]

/-- `m[k]`, and the map as it is left. -/
def subscript (m : κ → Option β) (k : κ) : β × (κ → Option β) :=
  match m k with
  | some b => (b, m)
  | none => (default, Function.update m k (some default))

omit [DecidableEq κ] in
def valueAt (m : κ → Option β) (k : κ) : β := (m k).getD default

@[simp] theorem subscript_fst (m : κ → Option β) (k : κ) : (subscript m k).1 = valueAt m k := by
  unfold subscript valueAt
  cases m k <;> rfl

theorem valueAt_update (m : κ → Option β) (k : κ) (b : β) (k' : κ) :
    valueAt (Function.update m k (some b)) k' = if k' = k then b else valueAt m k' := by
  unfold valueAt
  by_cases hk : k' = k
  · subst hk
    rw [Function.update_self, if_pos rfl, Option.getD_some]
  · rw [Function.update_of_ne hk, if_neg hk]

@[simp] theorem valueAt_subscript (m : κ → Option β) (k k' : κ) :
    valueAt (subscript m k).2 k' = valueAt m k' := by
  unfold subscript
  cases hm : m k with
  | some b => rfl
  | none =>
      rw [valueAt_update]
      split_ifs with hk
      · rw [hk, valueAt, hm, Option.getD_none]
      · rfl

end Subscript

end Foundation
