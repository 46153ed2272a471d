import Mathlib.Data.List.Forall2

/-!
# Codes that are read from the front

A code assigns a string to each value. `Determines P code f` says that the code
word of a value in `P`, with anything behind it, determines `f` of the value and
where the word ends. Such codes are put together piece by piece: a piece of fixed
length may come next, or one whose length follows from what has been read.

No word of such a code is a proper prefix of another, and a concatenation of
words is taken apart in one way only.
-/

namespace Foundation

variable {α β γ δ : Type*}

/-- A word of the code with anything behind it determines `f` of its value, and
the rest. -/
def Determines (P : α → Prop) (code : α → List β) (f : α → γ) : Prop :=
  ∀ a b, P a → P b → ∀ s t, code a ++ s = code b ++ t → f a = f b ∧ s = t

namespace Determines

variable {P : α → Prop} {code code' : α → List β} {f : α → γ} {g : α → δ}

theorem of_length (hlen : ∀ a b, (code a).length = (code b).length)
    (hf : ∀ a b, code a = code b → f a = f b) : Determines P code f := by
  intro a b _ _ s t h
  obtain ⟨hcode, hrest⟩ := List.append_inj h (hlen a b)
  exact ⟨hf a b hcode, hrest⟩

theorem const (word : List β) : Determines P (fun _ => word) fun _ => () :=
  of_length (fun _ _ => rfl) fun _ _ _ => rfl

theorem append (h : Determines P code f) (h' : Determines P code' g) :
    Determines P (fun a => code a ++ code' a) fun a => (f a, g a) := by
  intro a b ha hb s t heq
  rw [List.append_assoc, List.append_assoc] at heq
  obtain ⟨hf, hrest⟩ := h a b ha hb _ _ heq
  obtain ⟨hg, hrest'⟩ := h' a b ha hb _ _ hrest
  exact ⟨Prod.ext hf hg, hrest'⟩

theorem block (h : Determines P code f) {x : α → List β}
    (hlen : ∀ a b, P a → P b → f a = f b → (x a).length = (x b).length) :
    Determines P (fun a => code a ++ x a) fun a => (f a, x a) := by
  intro a b ha hb s t heq
  rw [List.append_assoc, List.append_assoc] at heq
  obtain ⟨hf, hrest⟩ := h a b ha hb _ _ heq
  obtain ⟨hx, hrest'⟩ := List.append_inj hrest (hlen a b ha hb hf)
  exact ⟨Prod.ext hf hx, hrest'⟩

theorem map (h : Determines P code f) (hg : ∀ a b, P a → P b → f a = f b → g a = g b) :
    Determines P code g := by
  intro a b ha hb s t heq
  obtain ⟨hf, hrest⟩ := h a b ha hb s t heq
  exact ⟨hg a b ha hb hf, hrest⟩

/-- No word is a proper prefix of another. -/
theorem eq_of_prefix (h : Determines P code f) {a b : α} (ha : P a) (hb : P b)
    (hle : code a <+: code b) : code a = code b := by
  obtain ⟨s, hs⟩ := hle
  obtain ⟨_, hnil⟩ := h a b ha hb s [] (by rw [hs, List.append_nil])
  rw [← hs, hnil, List.append_nil]

/-- A concatenation of words that are not empty is taken apart in one way only. -/
theorem flatMap (h : Determines P code f) (hne : ∀ a, P a → code a ≠ []) {as bs : List α}
    (has : ∀ a ∈ as, P a) (hbs : ∀ b ∈ bs, P b) (heq : as.flatMap code = bs.flatMap code) :
    List.Forall₂ (fun a b => f a = f b) as bs := by
  induction as generalizing bs with
  | nil =>
      cases bs with
      | nil => exact .nil
      | cons b bs =>
          have hempty := List.flatMap_eq_nil_iff.1 heq.symm b List.mem_cons_self
          exact absurd hempty (hne b (hbs b List.mem_cons_self))
  | cons a as ih =>
      cases bs with
      | nil =>
          have hempty := List.flatMap_eq_nil_iff.1 heq a List.mem_cons_self
          exact absurd hempty (hne a (has a List.mem_cons_self))
      | cons b bs =>
          rw [List.flatMap_cons, List.flatMap_cons] at heq
          obtain ⟨hfirst, hrest⟩ :=
            h a b (has a List.mem_cons_self) (hbs b List.mem_cons_self) _ _ heq
          exact .cons hfirst (ih (fun a ha => has a (List.mem_cons_of_mem _ ha))
            (fun b hb => hbs b (List.mem_cons_of_mem _ hb)) hrest)

end Determines

end Foundation
