import Mathlib.Data.List.Basic
import Mathlib.Order.Lattice

/-!
# Multimaps

A map from keys to any number of values, as an ordered list of entries. The
entries with one key stand in the order in which they have been inserted:
`emplace` puts a new entry behind all entries that do not have a greater key.

`upTo` and `above` are the two parts into which a key splits the entries, and
`erase` looks for its entry between the lower and the upper bound of the key.
Each of them is a plain filter or a plain `List.erase`, because the entries are
ordered.
-/

namespace Foundation

/-- Entries ordered by key. -/
structure Multimap (κ α : Type*) [LinearOrder κ] where
  entries : List (κ × α)
  sorted : entries.Pairwise fun a b => a.1 ≤ b.1

namespace Multimap

variable {κ α : Type*} [LinearOrder κ]

section Sorted

variable {l : List (κ × α)} {p : κ → Bool}

/-- In an ordered list, the entries whose keys meet a condition that only
smaller keys meet stand in front. -/
theorem takeWhile_eq_filter (h : l.Pairwise fun a b => a.1 ≤ b.1)
    (hp : ∀ a b, a ≤ b → p b = true → p a = true) :
    l.takeWhile (fun a => p a.1) = l.filter fun a => p a.1 := by
  induction l with
  | nil => rfl
  | cons a l ih =>
      obtain ⟨hhead, htail⟩ := List.pairwise_cons.1 h
      by_cases ha : p a.1 = true
      · rw [List.takeWhile_cons, List.filter_cons, if_pos ha, if_pos ha, ih htail]
      · rw [List.takeWhile_cons, List.filter_cons, if_neg ha, if_neg ha]
        refine (List.filter_eq_nil_iff.2 fun b hb => ?_).symm
        exact fun hpb => ha (hp _ _ (hhead b hb) hpb)

theorem dropWhile_eq_filter (h : l.Pairwise fun a b => a.1 ≤ b.1)
    (hp : ∀ a b, a ≤ b → p b = true → p a = true) :
    l.dropWhile (fun a => p a.1) = l.filter fun a => !p a.1 := by
  induction l with
  | nil => rfl
  | cons a l ih =>
      obtain ⟨hhead, htail⟩ := List.pairwise_cons.1 h
      by_cases ha : p a.1 = true
      · rw [List.dropWhile_cons, List.filter_cons, if_pos ha, if_neg (by simp [ha]), ih htail]
      · rw [List.dropWhile_cons, if_neg ha]
        refine (List.filter_eq_self.2 fun b hb => ?_).symm
        rcases List.mem_cons.1 hb with rfl | hb
        · simpa using ha
        · simpa using fun hpb => ha (hp _ _ (hhead b hb) hpb)

end Sorted

def empty : Multimap κ α := ⟨[], List.Pairwise.nil⟩

/-- The entries in front of the upper bound of `k`. -/
def upTo (m : Multimap κ α) (k : κ) : List (κ × α) := m.entries.takeWhile (·.1 ≤ k)

/-- The entries from the upper bound of `k` on. -/
def above (m : Multimap κ α) (k : κ) : List (κ × α) := m.entries.dropWhile (·.1 ≤ k)

variable (m : Multimap κ α) (k : κ)

theorem upTo_eq_filter : m.upTo k = m.entries.filter (·.1 ≤ k) :=
  takeWhile_eq_filter (p := fun a => decide (a ≤ k)) m.sorted
    fun _ _ hab hb => decide_eq_true (hab.trans (of_decide_eq_true hb))

theorem above_eq_filter : m.above k = m.entries.filter (k < ·.1) := by
  rw [above, dropWhile_eq_filter (p := fun a => decide (a ≤ k)) m.sorted
    fun _ _ hab hb => decide_eq_true (hab.trans (of_decide_eq_true hb))]
  refine List.filter_congr fun a _ => ?_
  rw [← decide_not, decide_eq_decide, not_le]

theorem upTo_append_above : m.upTo k ++ m.above k = m.entries := List.takeWhile_append_dropWhile

@[simp] theorem mem_upTo {a : κ × α} : a ∈ m.upTo k ↔ a ∈ m.entries ∧ a.1 ≤ k := by
  rw [upTo_eq_filter, List.mem_filter, decide_eq_true_iff]

@[simp] theorem mem_above {a : κ × α} : a ∈ m.above k ↔ a ∈ m.entries ∧ k < a.1 := by
  rw [above_eq_filter, List.mem_filter, decide_eq_true_iff]

/-- Insert an entry behind those that do not have a greater key. -/
def emplace (v : α) : Multimap κ α where
  entries := m.upTo k ++ (k, v) :: m.above k
  sorted := by
    have hsplit : (m.upTo k ++ m.above k).Pairwise fun a b => a.1 ≤ b.1 :=
      (m.upTo_append_above k).symm ▸ m.sorted
    obtain ⟨hupTo, habove, hcross⟩ := List.pairwise_append.1 hsplit
    refine List.pairwise_append.2 ⟨hupTo, List.pairwise_cons.2 ⟨?_, habove⟩, ?_⟩
    · intro b hb
      exact ((m.mem_above k).1 hb).2.le
    · intro a ha b hb
      rcases List.mem_cons.1 hb with rfl | hb
      · exact ((m.mem_upTo k).1 ha).2
      · exact hcross a ha b hb

/-- Erase the entries in front of the upper bound of `k`. -/
def eraseUpTo : Multimap κ α := ⟨m.above k, m.sorted.sublist (List.dropWhile_sublist _)⟩

theorem entries_emplace (v : α) : (m.emplace k v).entries = m.upTo k ++ (k, v) :: m.above k := rfl

theorem entries_eraseUpTo : (m.eraseUpTo k).entries = m.above k := rfl

@[simp] theorem mem_emplace {v : α} {a : κ × α} :
    a ∈ (m.emplace k v).entries ↔ a = (k, v) ∨ a ∈ m.entries := by
  rw [entries_emplace, List.mem_append, List.mem_cons, or_left_comm, ← List.mem_append,
    upTo_append_above]

section Erase

variable [DecidableEq α]

/-- Look for an entry with the value `v` between the lower and the upper bound of
`k`, and erase the first one. -/
def erase (v : α) : Multimap κ α where
  entries :=
    let below := m.entries.takeWhile (·.1 < k)
    let rest := m.entries.dropWhile (·.1 < k)
    below ++ ((rest.takeWhile (·.1 ≤ k)).eraseP (·.2 = v) ++ rest.dropWhile (·.1 ≤ k))
  sorted := by
    refine m.sorted.sublist ?_
    have hrest := (List.eraseP_sublist (p := fun a : κ × α => decide (a.2 = v))
      (l := (m.entries.dropWhile (·.1 < k)).takeWhile (·.1 ≤ k))).append
      (List.Sublist.refl ((m.entries.dropWhile (·.1 < k)).dropWhile (·.1 ≤ k)))
    rw [List.takeWhile_append_dropWhile] at hrest
    simpa using (List.Sublist.refl (m.entries.takeWhile (·.1 < k))).append hrest

theorem eraseP_eq_erase {k : κ} {v : α} {l : List (κ × α)} (h : ∀ a ∈ l, a.1 = k) :
    l.eraseP (fun a => decide (a.2 = v)) = l.erase (k, v) := by
  induction l with
  | nil => rfl
  | cons a l ih =>
      obtain ⟨b, w⟩ := a
      obtain ⟨hb, hl⟩ := List.forall_mem_cons.1 h
      subst hb
      by_cases hw : w = v
      · subst hw
        simp
      · rw [List.eraseP_cons_of_neg (by simp [hw]), ih hl, List.erase_cons_tail (by simp [hw])]

theorem entries_erase (v : α) : (m.erase k v).entries = m.entries.erase (k, v) := by
  have hlt : ∀ a b : κ, a ≤ b → decide (b < k) = true → decide (a < k) = true :=
    fun _ _ hab hb => decide_eq_true (hab.trans_lt (of_decide_eq_true hb))
  have hle : ∀ a b : κ, a ≤ b → decide (b ≤ k) = true → decide (a ≤ k) = true :=
    fun _ _ hab hb => decide_eq_true (hab.trans (of_decide_eq_true hb))
  have hbelow := takeWhile_eq_filter (p := fun a => decide (a < k)) m.sorted hlt
  have hrest := dropWhile_eq_filter (p := fun a => decide (a < k)) m.sorted hlt
  have hsorted : (m.entries.dropWhile (·.1 < k)).Pairwise fun a b => a.1 ≤ b.1 :=
    m.sorted.sublist (List.dropWhile_sublist _)
  have hrange := takeWhile_eq_filter (p := fun a => decide (a ≤ k)) hsorted hle
  have hnotBelow : (k, v) ∉ m.entries.takeWhile (·.1 < k) := by
    rw [hbelow, List.mem_filter]
    simp
  have hkey : ∀ a ∈ (m.entries.dropWhile (·.1 < k)).takeWhile (·.1 ≤ k), a.1 = k := by
    intro a ha
    rw [hrange, List.mem_filter, hrest, List.mem_filter] at ha
    exact le_antisymm (by simpa using ha.2) (by simpa using ha.1.2)
  have hnotAbove : (k, v) ∉ (m.entries.dropWhile (·.1 < k)).dropWhile (·.1 ≤ k) := by
    rw [dropWhile_eq_filter (p := fun a => decide (a ≤ k)) hsorted hle, List.mem_filter]
    simp
  conv_rhs => rw [← List.takeWhile_append_dropWhile (p := fun a => decide (a.1 < k))
    (l := m.entries), List.erase_append_right _ hnotBelow,
    ← List.takeWhile_append_dropWhile (p := fun a => decide (a.1 ≤ k))
      (l := m.entries.dropWhile (·.1 < k))]
  rw [List.erase_append, ← eraseP_eq_erase hkey]
  split
  · rfl
  · rename_i hmem
    rw [List.erase_of_not_mem hnotAbove, ← List.erase_of_not_mem hmem, ← eraseP_eq_erase hkey]
    rfl

end Erase

end Multimap

end Foundation
